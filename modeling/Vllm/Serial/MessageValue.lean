import Vllm.Lib.Dict
import Vllm.Lib.Raise

/-! What messages between processes carry: tensors, multimodal keyword arguments and the results of
utility calls, and the values of the wire format (`serial_utils.py`, `multimodal/inputs.py`). -/
namespace Vllm

abbrev Bytes := List UInt8

/-- The dtypes of `torch` whose elements are whole bytes. -/
inductive TensorDtype where
  | uint8 | uint16 | uint32 | uint64 | int8 | int16 | int32 | int64
  | float16 | bfloat16 | float32 | float64 | complex32 | complex64 | complex128 | bool
  | float8E4m3fn | float8E5m2 | float8E4m3fnuz | float8E5m2fnuz | float8E8m0fnu
  deriving DecidableEq, Repr

namespace TensorDtype

def all : List TensorDtype :=
  [uint8, uint16, uint32, uint64, int8, int16, int32, int64, float16, bfloat16, float32, float64,
    complex32, complex64, complex128, bool, float8E4m3fn, float8E5m2, float8E4m3fnuz,
    float8E5m2fnuz, float8E8m0fnu]

def itemsize : TensorDtype → ℕ
  | uint8 | int8 | bool => 1
  | float8E4m3fn | float8E5m2 | float8E4m3fnuz | float8E5m2fnuz | float8E8m0fnu => 1
  | uint16 | int16 | float16 | bfloat16 => 2
  | uint32 | int32 | float32 | complex32 => 4
  | uint64 | int64 | float64 | complex64 => 8
  | complex128 => 16

/-- `str(dtype)` without the prefix `torch.`, which is also the attribute of `torch`. -/
def name : TensorDtype → String
  | uint8 => "uint8"
  | uint16 => "uint16"
  | uint32 => "uint32"
  | uint64 => "uint64"
  | int8 => "int8"
  | int16 => "int16"
  | int32 => "int32"
  | int64 => "int64"
  | float16 => "float16"
  | bfloat16 => "bfloat16"
  | float32 => "float32"
  | float64 => "float64"
  | complex32 => "complex32"
  | complex64 => "complex64"
  | complex128 => "complex128"
  | bool => "bool"
  | float8E4m3fn => "float8_e4m3fn"
  | float8E5m2 => "float8_e5m2"
  | float8E4m3fnuz => "float8_e4m3fnuz"
  | float8E5m2fnuz => "float8_e5m2fnuz"
  | float8E8m0fnu => "float8_e8m0fnu"

/-- `getattr(torch, name)`. -/
def ofName (name : String) : Option TensorDtype := all.find? fun d => d.name = name

theorem ofName_name (d : TensorDtype) : ofName d.name = some d := by
  cases d <;> decide

end TensorDtype

/-- A tensor as the bytes of its elements in order. -/
structure Tensor where
  dtype : TensorDtype
  shape : List ℕ
  data : Bytes
  isCpu : Bool := true
  size_eq : data.length = dtype.itemsize * shape.prod
  deriving DecidableEq

/-- The same tensor on the CPU, where decoded tensors are. -/
def Tensor.cpu (t : Tensor) : Tensor := { t with isCpu := true }

inductive Number where
  | bool (b : Bool)
  | int (z : ℤ)
  | float (bits : UInt64)
  deriving DecidableEq

/-- Lists of tensors and numbers of any depth. -/
inductive NestedTensors where
  | tensor (t : Tensor)
  | number (x : Number)
  | list (nts : List NestedTensors)

mutual

def NestedTensors.cpu : NestedTensors → NestedTensors
  | .tensor t => .tensor t.cpu
  | .number x => .number x
  | .list nts => .list (cpuList nts)

def cpuList : List NestedTensors → List NestedTensors
  | [] => []
  | nt :: nts => nt.cpu :: cpuList nts

end

/-- Python slices in sequences of any depth. -/
inductive NestedSlices where
  | slice (start stop step : Option ℤ)
  | list (slices : List NestedSlices)

/-- The subclasses of `BaseMultiModalField`. -/
inductive MultiModalField where
  | batched (keepOnCpu : Bool)
  | flat (keepOnCpu : Bool) (slices : NestedSlices) (dim : ℤ)
  | shared (keepOnCpu : Bool) (batchSize : ℤ)

structure MultiModalFieldElem where
  data : Option NestedTensors
  field : MultiModalField

def MultiModalFieldElem.cpu (elem : MultiModalFieldElem) : MultiModalFieldElem :=
  { elem with data := elem.data.map NestedTensors.cpu }

abbrev MultiModalKwargsItem := Dict String MultiModalFieldElem

abbrev MultiModalKwargsItems := Dict String (List MultiModalKwargsItem)

inductive MsgpackKey where
  | str (s : String)
  | int (z : ℤ)
  deriving DecidableEq

/-- The native values of the wire format; a float is its 64 bits, and tuples are arrays. -/
inductive MsgpackValue where
  | nil
  | bool (b : Bool)
  | int (z : ℤ)
  | float (bits : UInt64)
  | str (s : String)
  | bin (data : Bytes)
  | array (xs : List MsgpackValue)
  | map (entries : List (MsgpackKey × MsgpackValue))
  | ext (code : ℕ) (data : Bytes)

/-- What a utility call returns. -/
inductive ResultObject where
  | none
  | bool (b : Bool)
  | int (z : ℤ)
  | float (bits : UInt64)
  | str (s : String)
  | bytes (data : Bytes)
  | tensor (t : Tensor)
  | list (xs : List ResultObject)
  | dict (entries : List (MsgpackKey × ResultObject))

mutual

/-- The keys of every dictionary in it are distinct. -/
def ResultObject.DistinctKeys : ResultObject → Prop
  | .list xs => distinctKeysList xs
  | .dict entries => (entries.map Prod.fst).Nodup ∧ distinctKeysEntries entries
  | _ => True

def distinctKeysList : List ResultObject → Prop
  | [] => True
  | x :: xs => x.DistinctKeys ∧ distinctKeysList xs

def distinctKeysEntries : List (MsgpackKey × ResultObject) → Prop
  | [] => True
  | (_, x) :: entries => x.DistinctKeys ∧ distinctKeysEntries entries

end

mutual

/-- The object with all tensors on the CPU. -/
def ResultObject.cpu : ResultObject → ResultObject
  | .tensor t => .tensor t.cpu
  | .list xs => .list (cpuResults xs)
  | .dict entries => .dict (cpuEntries entries)
  | x => x

def cpuResults : List ResultObject → List ResultObject
  | [] => []
  | x :: xs => x.cpu :: cpuResults xs

def cpuEntries : List (MsgpackKey × ResultObject) → List (MsgpackKey × ResultObject)
  | [] => []
  | (k, x) :: entries => (k, x.cpu) :: cpuEntries entries

end

mutual

/-- Only native values at its leaves. -/
def ResultObject.Native : ResultObject → Prop
  | .tensor _ => False
  | .list xs => nativeList xs
  | .dict entries => nativeEntries entries
  | _ => True

def nativeList : List ResultObject → Prop
  | [] => True
  | x :: xs => x.Native ∧ nativeList xs

def nativeEntries : List (MsgpackKey × ResultObject) → Prop
  | [] => True
  | (_, x) :: entries => x.Native ∧ nativeEntries entries

end

structure UtilityResult where
  result : ResultObject
  distinctKeys : result.DistinctKeys

end Vllm
