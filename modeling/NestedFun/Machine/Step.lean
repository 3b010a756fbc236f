import NestedFun.Text.Basic
import NestedFun.Machine.SystemFunction

namespace NestedFun

/-!
# Steps

The effect of every instruction. The program counter moves on before the instruction is carried out
and stays there if it fails.
-/

/-- The result of an operator: `y` was on top of the stack and `x` below it. -/
def Operator.apply : Operator → Word → Word → Except FaultKind Word
  | .add, x, y => .ok (x + y)
  | .mul, x, y => .ok (x * y)
  | .rsub, x, y => .ok (y - x)
  | .rdiv, x, y => if x = 0 then .error .divisionByZero else .ok (y / x)
  | .rmod, x, y => if x = 0 then .error .divisionByZero else .ok (y % x)
  | .equ, x, y => .ok (.ofBool (x = y))
  | .neq, x, y => .ok (.ofBool (x ≠ y))
  | .lth, x, y => .ok (.ofBool (x < y))
  | .gth, x, y => .ok (.ofBool (x > y))
  | .leq, x, y => .ok (.ofBool (x ≤ y))
  | .geq, x, y => .ok (.ofBool (x ≥ y))
  | .and, x, y => .ok (.ofBool (x ≠ 0 && y ≠ 0))
  | .or, x, y => .ok (.ofBool (x ≠ 0 || y ≠ 0))
  | .not, _, y => .ok (.ofBool (y = 0))
  | .neg, _, y => .ok (-y)

namespace Exec

def operate (operator : Operator) : Exec Unit := do
  let y ← pop
  let x ← if operator.isUnary then pure 0 else pop
  match operator.apply x y with
  | .ok result => push result
  | .error kind => throw kind

/-- Calls the function at an address. The callee's frame starts where the stack ends; the frame
pointer and the return address of the caller go below it. -/
def call (image : Image) (target : Word) (frame : Frame) : Exec (Option Word) := do
  enter frame.label
  match SystemFunction.ofAddress? target with
  | some function => callSystem function frame
  | none =>
    let s ← get
    let callerFrame := s.fp
    let returnAddress := s.pc
    jump image target
    modify fun s => { s with fp := s.sp }
    push callerFrame
    push returnAddress
    return none

/-- Returns from a function: its result, on top of the stack, replaces its frame and the bytes that
were pushed for the call. -/
def ret (image : Image) (frame : Frame) : Exec Unit := do
  let kept ← pop
  let result ← pop
  let s ← get
  let framePointer := s.fp
  let actual := s.sp
  let expected := framePointer - .ofInt frame.localsSize
  if actual ≠ expected then throw (.frameMismatch frame.label expected actual)
  let callerFrame ← read (framePointer - 4)
  let returnAddress ← read (framePointer - 8)
  let destination := framePointer + kept
  write destination result
  modify fun s => { s with sp := destination, fp := callerFrame }
  leave
  jump image returnAddress

/-- Copies words; yields the address behind the last one written. -/
def copyWords : Nat → Word → Word → Exec Word
  | 0, _, target => return target
  | n + 1, source, target => do
    let value ← read source
    write target value
    copyWords n (source.after 1) (target.after 1)

def copyRepeated (length : Nat) (source : Word) : Nat → Word → Exec Word
  | 0, target => return target
  | n + 1, target => do
    let target ← copyWords length source target
    copyRepeated length source n target

def expandGroups : Nat → Word → Word → Exec Unit
  | 0, _, _ => return
  | n + 1, source, target => do
    let repeats ← read source
    let length ← read (source.after 1)
    let values := source.after 2
    let copies := if length ≤ 0 then 0 else repeats.toInt.toNat
    let target ← copyRepeated length.toInt.toNat values copies target
    expandGroups n (values.after length) target

def expand (destination encoding : Word) : Exec Unit := do
  let groups ← read encoding
  expandGroups groups.toInt.toNat (encoding.after 1) destination

/-- Carries out an instruction; yields the exit code if the program has ended. -/
def perform (image : Image) : Instruction → Exec (Option Word)
  | .label _ => return none
  | .push value => do
    push value
    return none
  | .popn => do
    moveTop (← pop)
    return none
  | .regn .framePointer => do
    let s ← get
    push s.fp
    return none
  | .oper operator => do
    operate operator
    return none
  | .load => do
    let address ← pop
    push (← read address)
    return none
  | .save => do
    let address ← pop
    let value ← pop
    write address value
    return none
  | .name label => do
    match image.addressOf label with
    | .ok address => push address
    | .error kind => throw kind
    return none
  | .call frame => do
    let target ← pop
    call image target frame
  | .retn frame => do
    ret image frame
    return none
  | .ujmp => do
    jump image (← pop)
    return none
  | .cjmp => do
    let negative ← pop
    let positive ← pop
    let condition ← pop
    jump image (if condition ≠ 0 then positive else negative)
    return none
  | .init => do
    let encoding ← pop
    let destination ← pop
    expand destination encoding
    return none

def step (image : Image) : Exec (Option Word) := do
  let s ← get
  let pc := s.pc
  match image.fetch? pc with
  | none => throw (.invalidJump pc)
  | some instruction =>
    modify fun s => { s with pc := s.pc + .ofInt instruction.size }
    perform image instruction

end Exec

/-- What the trace shows before an instruction is carried out. -/
def traceLine? (image : Image) (s : State) : Option String :=
  (image.fetch? s.pc).map fun instruction =>
    s!"{padLeft 8 s.pc.numeral} {padRight 20 instruction.text} SP={s.sp.numeral} FP={s.fp.numeral}"

/-- How a program stands: it runs, it has ended with an exit code, or a fault has stopped it. -/
inductive Outcome where
  | running
  | exited (code : Word)
  | faulted (fault : Fault)
deriving DecidableEq, Inhabited

/-- Carries out at most `n` instructions. -/
def runFor (image : Image) : Nat → State → Outcome × State
  | 0, s => (.running, s)
  | n + 1, s =>
    match Exec.step image s with
    | .ok none s => runFor image n s
    | .ok (some code) s => (.exited code, s)
    | .error kind s => (.faulted ⟨kind, s.callStack⟩, s)

/-- Carries out at most `n` instructions; adds a line for each to a trace if it is wanted. -/
def runTraced (image : Image) (traced : Bool) :
    Nat → Array String → State → Outcome × Array String × State
  | 0, trace, s => (.running, trace, s)
  | n + 1, trace, s =>
    let trace := match traced, traceLine? image s with
      | true, some line => trace.push line
      | _, _ => trace
    match Exec.step image s with
    | .ok none s => runTraced image traced n trace s
    | .ok (some code) s => (.exited code, trace, s)
    | .error kind s => (.faulted ⟨kind, s.callStack⟩, trace, s)

/-- The trace does not change how a program runs. -/
theorem runTraced_eq_runFor (image : Image) (traced : Bool) (n : Nat) (trace : Array String)
    (s : State) :
    ((runTraced image traced n trace s).1, (runTraced image traced n trace s).2.2)
      = runFor image n s := by
  induction n generalizing trace s with
  | zero => rfl
  | succ n ih =>
      simp only [runTraced, runFor]
      split <;> simp_all

end NestedFun
