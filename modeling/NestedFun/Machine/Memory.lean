import NestedFun.Machine.Fault

namespace NestedFun

/-!
# Memory

A row of bytes that is read and written in words, the low byte first, at any address. The addresses
before the data belong to the code and hold no words.
-/

structure Memory where
  bytes : ByteArray
  dataStart : Nat

/-- A number of zero bytes, made by doubling. -/
def zeroBytes (n : Nat) : ByteArray :=
  if n = 0 then .empty
  else
    let half := zeroBytes (n / 2)
    if n % 2 = 0 then half ++ half else (half ++ half).push 0

theorem size_zeroBytes (n : Nat) : (zeroBytes n).size = n := by
  fun_induction zeroBytes n with
  | case1 => rfl
  | case2 n _ half heven ih =>
      rw [ByteArray.size_append, ih]
      omega
  | case3 n _ half hodd ih =>
      rw [ByteArray.size_push, ByteArray.size_append, ih]
      omega

-- Comparing two memories never looks into what was written to them.
@[irreducible] def setByte (bytes : ByteArray) (i : Nat) (b : UInt8) : ByteArray := bytes.set! i b

namespace Memory

def zeros (size dataStart : Nat) : Memory := ⟨zeroBytes size, dataStart⟩

def size (memory : Memory) : Nat := memory.bytes.size

/-- Whether a whole word of data stands at an address. -/
def Holds (memory : Memory) (address : Word) : Prop :=
  memory.dataStart ≤ address.toInt ∧ address.toInt + wordSize ≤ memory.size

instance (memory : Memory) (address : Word) : Decidable (memory.Holds address) :=
  inferInstanceAs (Decidable (_ ∧ _))

/-- The byte at a position; there are zeros past the end. -/
def byte (memory : Memory) (i : Nat) : UInt8 := memory.bytes.get! i

def getWord (memory : Memory) (i : Nat) : Word :=
  ((memory.byte i).toUInt32
    ||| (memory.byte (i + 1)).toUInt32 <<< 8
    ||| (memory.byte (i + 2)).toUInt32 <<< 16
    ||| (memory.byte (i + 3)).toUInt32 <<< 24).toInt32

def setWord (memory : Memory) (i : Nat) (value : Word) : Memory :=
  let bits := value.toUInt32
  let first := setByte memory.bytes i bits.toUInt8
  let second := setByte first (i + 1) (bits >>> 8).toUInt8
  let third := setByte second (i + 2) (bits >>> 16).toUInt8
  { memory with bytes := setByte third (i + 3) (bits >>> 24).toUInt8 }

def read (memory : Memory) (address : Word) : Except FaultKind Word :=
  if memory.Holds address then .ok (memory.getWord address.toInt.toNat)
  else .error (.invalidAddress address)

def write (memory : Memory) (address value : Word) : Except FaultKind Memory :=
  if memory.Holds address then .ok (memory.setWord address.toInt.toNat value)
  else .error (.invalidAddress address)

/-- Writes words one behind the other, up to the first that finds no place. -/
def writeWords (memory : Memory) (address : Word) : List Word → Memory × Except FaultKind Unit
  | [] => (memory, .ok ())
  | value :: values =>
    if memory.Holds address then
      writeWords (memory.setWord address.toInt.toNat value) (address.after 1) values
    else (memory, .error (.invalidAddress address))

end Memory

end NestedFun
