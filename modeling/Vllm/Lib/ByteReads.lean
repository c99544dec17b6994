import Mathlib.Tactic

/-! Programs that read bytes of a store one at a time, and big-endian numbers. A program whose bytes
do not change while it runs computes what it computes on the store as it stands. -/

inductive ByteReads (α : Type) where
  | done (a : α)
  | read (offset : ℕ) (next : UInt8 → ByteReads α)

namespace ByteReads
variable {α β : Type}

/-- What the program computes on a store that does not change. -/
def eval (d : ℕ → UInt8) : ByteReads α → α
  | done a => a
  | read offset next => (next (d offset)).eval d

def bind : ByteReads α → (α → ByteReads β) → ByteReads β
  | done a, f => f a
  | read offset next, f => read offset fun b => (next b).bind f

instance : Monad ByteReads where
  pure := done
  bind := bind

def byte (offset : ℕ) : ByteReads UInt8 := read offset done

/-- The bytes from `start`, `count` of them. -/
def bytes (start : ℕ) : ℕ → ByteReads (List UInt8)
  | 0 => pure []
  | count + 1 => do
    let b ← byte start
    let rest ← bytes (start + 1) count
    pure (b :: rest)

section
variable (d : ℕ → UInt8)
include d

@[simp] theorem eval_pure (a : α) : (pure a : ByteReads α).eval d = a := rfl

@[simp] theorem eval_bind (p : ByteReads α) (f : α → ByteReads β) :
    (p >>= f).eval d = (f (p.eval d)).eval d := by
  induction p with
  | done a => rfl
  | read offset next ih => exact ih (d offset)

@[simp] theorem eval_byte (offset : ℕ) : (byte offset).eval d = d offset := rfl

@[simp] theorem eval_bytes (start count : ℕ) :
    (bytes start count).eval d = (List.range' start count).map d := by
  induction count generalizing start with
  | zero => rfl
  | succ count ih =>
    rw [bytes, eval_bind, eval_bind, ih, eval_pure, eval_byte, List.range'_succ, List.map_cons]

end

end ByteReads

/-- The last `size` base-256 digits of a number, the most significant first. -/
def bigEndian (value : ℕ) : ℕ → List UInt8
  | 0 => []
  | size + 1 => UInt8.ofNat (value / 256 ^ size) :: bigEndian value size

@[simp] theorem length_bigEndian (value size : ℕ) : (bigEndian value size).length = size := by
  induction size with
  | zero => rfl
  | succ size ih => simp [bigEndian, ih]

/-- `int.to_bytes`, where the number fits. -/
def toBytesBig (value size : ℕ) : Option (List UInt8) :=
  if value < 256 ^ size then some (bigEndian value size) else none

/-- `int.from_bytes`. -/
def fromBytesBig : List UInt8 → ℕ
  | [] => 0
  | b :: rest => b.toNat * 256 ^ rest.length + fromBytesBig rest

theorem fromBytesBig_bigEndian (value size : ℕ) :
    fromBytesBig (bigEndian value size) = value % 256 ^ size := by
  induction size with
  | zero => simp [bigEndian, fromBytesBig, Nat.mod_one]
  | succ size ih =>
    have hbyte : (UInt8.ofNat (value / 256 ^ size)).toNat = value / 256 ^ size % 256 :=
      UInt8.toNat_ofNat'
    rw [bigEndian, fromBytesBig, ih, length_bigEndian, hbyte, Nat.mod_pow_succ, Nat.mul_comm,
      Nat.add_comm]
