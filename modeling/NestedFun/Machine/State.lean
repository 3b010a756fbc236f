import Std.Data.TreeMap
import NestedFun.Instruction
import NestedFun.Machine.Fault
import NestedFun.Machine.Memory

namespace NestedFun

/-!
# Machine states

The heap grows upwards from the end of the data, the stack downwards from the end of the memory. The
operations here are what instructions are made of; one that fails leaves the state as it was.
-/

/-- A loaded program: the instruction that starts at each byte of the code, if one does, and the
addresses of the labels. -/
structure Image where
  code : Array (Option Instruction)
  labels : Std.TreeMap String Word

namespace Image

def fetch? (image : Image) (address : Word) : Option Instruction :=
  if address < 0 then none else (image.code[address.toInt.toNat]?).join

def addressOf (image : Image) (label : String) : Except FaultKind Word :=
  match image.labels[label]? with
  | some address => .ok address
  | none => .error (.undefinedLabel label)

def count (image : Image) : Nat :=
  image.code.foldl (fun n instruction => if instruction.isSome then n + 1 else n) 0

end Image

/-- The state of the machine. The call stack holds the labels of the active functions, the innermost
first. -/
structure State where
  memory : Memory
  pc : Word
  sp : Word
  fp : Word
  heapEnd : Word
  callStack : List String
  input : List UInt8
  output : Output

/-- Something that the machine does: it changes the state, and yields a value or a fault. -/
abbrev Exec := EStateM FaultKind State

namespace Exec

def read (address : Word) : Exec Word := fun s =>
  match s.memory.read address with
  | .ok value => .ok value s
  | .error kind => .error kind s

def write (address value : Word) : Exec Unit := fun s =>
  if s.memory.Holds address then
    .ok () { s with memory := s.memory.setWord address.toInt.toNat value }
  else .error (.invalidAddress address) s

/-- Pushes a word, unless the stack would grow into the heap. -/
def push (value : Word) : Exec Unit := fun s =>
  let sp := s.sp - 4
  if sp < s.heapEnd then .error (.stackOverflow sp s.heapEnd) s
  else if s.memory.Holds sp then
    .ok () { s with memory := s.memory.setWord sp.toInt.toNat value, sp }
  else .error (.invalidAddress sp) s

def pop : Exec Word := fun s =>
  match s.memory.read s.sp with
  | .ok value => .ok value { s with sp := s.sp + 4 }
  | .error kind => .error kind s

/-- Moves the top of the stack, which has to stay between the heap and the end of the memory. -/
def moveTop (distance : Word) : Exec Unit := fun s =>
  let sp := s.sp.toInt + distance.toInt
  if !fitsWord sp || s.memory.size < sp then .error (.invalidAddress (s.sp + distance)) s
  else if sp < s.heapEnd.toInt then .error (.stackOverflow (.ofInt sp) s.heapEnd) s
  else .ok () { s with sp := .ofInt sp }

/-- Goes on at an address, which has to hold an instruction. -/
def jump (image : Image) (target : Word) : Exec Unit := fun s =>
  if (image.fetch? target).isSome then .ok () { s with pc := target }
  else .error (.invalidJump target) s

def enter (label : String) : Exec Unit :=
  modify fun s => { s with callStack := label :: s.callStack }

def leave : Exec Unit :=
  modify fun s => { s with callStack := s.callStack.tail }

def emit (bytes : List UInt8) : Exec Unit := do
  let complete ← modifyGet fun s =>
    let (output, complete) := s.output.write bytes
    (complete, { s with output })
  if !complete then throw (.console .outputFull)

def takeLine : Exec (List UInt8) :=
  modifyGet fun s =>
    let (line, rest) := splitLine s.input
    (line, { s with input := rest })

def takeByte : Exec (Option UInt8) :=
  modifyGet fun s => (s.input.head?, { s with input := s.input.tail })

end Exec

end NestedFun
