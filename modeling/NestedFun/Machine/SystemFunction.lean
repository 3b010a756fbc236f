import NestedFun.Machine.State

namespace NestedFun

/-!
# System functions

The functions that the machine itself provides. Their labels stand for negative addresses, one each.
A call finds the static link on top of the stack and the arguments below it, and leaves the result
in place of all of these.
-/

inductive SystemFunction where
  | exit | getint | putint | getchr | putchr | putstr | new | del
deriving DecidableEq

namespace SystemFunction

def all : List SystemFunction :=
  [exit, getint, putint, getchr, putchr, putstr, new, del]

def name : SystemFunction → String
  | exit => "exit"
  | getint => "getint"
  | putint => "putint"
  | getchr => "getchr"
  | putchr => "putchr"
  | putstr => "putstr"
  | new => "new"
  | del => "del"

def address : SystemFunction → Word
  | exit => -1
  | getint => -2
  | putint => -3
  | getchr => -4
  | putchr => -5
  | putstr => -6
  | new => -7
  | del => -8

def ofName? (name : String) : Option SystemFunction :=
  all.find? fun function => function.name = name

def ofAddress? (address : Word) : Option SystemFunction :=
  all.find? fun function => function.address = address

end SystemFunction

/-- Writes the low byte of every word from a position on, up to a zero. It fails where there is no
room for a byte, and at the first position that holds no word; what has been written stays. -/
def Memory.copyText (memory : Memory) (output : Output) (i : Nat) :
    Output × Except FaultKind Unit :=
  if i + wordSize ≤ memory.size then
    let value := memory.getWord i
    if value = 0 then (output, .ok ())
    else
      match output.put? value.toUInt32.toUInt8 with
      | some output => copyText memory output (i + wordSize)
      | none => (output, .error (.console .outputFull))
  else (output, .error (.invalidAddress (.ofInt i)))
termination_by memory.size - i
decreasing_by
  simp only [wordSize] at *
  omega

namespace Exec

/-- Takes memory from the end of the heap, a whole number of words. -/
def allocate (size : Word) : Exec Word := fun s =>
  if size < 0 || !fitsWord (size.toInt + 3) then .error (.outOfMemory size) s
  else
    let stop := s.heapEnd.toInt + size.alignUp.toInt
    if stop ≤ s.sp.toInt then .ok s.heapEnd { s with heapEnd := .ofInt stop }
    else .error (.outOfMemory size) s

/-- Writes the low byte of every word at an address and behind it, up to a zero. -/
def emitText (address : Word) : Exec Unit := fun s =>
  if s.memory.Holds address then
    match s.memory.copyText s.output address.toInt.toNat with
    | (output, .ok ()) => .ok () { s with output }
    | (output, .error kind) => .error kind { s with output }
  else .error (.invalidAddress address) s

/-- The result of a system function with the given argument; for `exit` there is none. -/
def system (function : SystemFunction) (argument : Exec Word) : Exec Word := do
  match function with
  | .exit => argument
  | .getint =>
    let line ← takeLine
    match readInteger line with
    | .ok value => return value
    | .error error => throw (.console error)
  | .putint =>
    let value ← argument
    emit value.numeral.toUTF8.toList
    return 0
  | .getchr =>
    match ← takeByte with
    | some b => return .ofInt b.toNat
    | none => return -1
  | .putchr =>
    let value ← argument
    emit [value.toUInt32.toUInt8]
    return 0
  | .putstr =>
    emitText (← argument)
    return 0
  | .new => allocate (← argument)
  | .del => return 0

/-- Calls a system function; yields the exit code if it was `exit`. -/
def callSystem (function : SystemFunction) (frame : Frame) : Exec (Option Word) := do
  let s ← get
  let top := s.sp
  let result ← system function (read (top + 4))
  if function = .exit then return some result
  else
    let destination := top + .ofInt (frame.parametersSize - linkSize)
    write destination result
    modify fun s => { s with sp := destination }
    leave
    return none

end Exec

end NestedFun
