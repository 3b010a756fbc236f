import NestedFun.Machine.Console

namespace NestedFun

/-!
# Faults

What stops a running program, and which functions were active at that time.
-/

inductive FaultKind where
  | invalidAddress (address : Word)
  | stackOverflow (stackPointer heapEnd : Word)
  | outOfMemory (size : Word)
  | divisionByZero
  | invalidJump (address : Word)
  | undefinedLabel (label : String)
  | duplicateLabel (label : String)
  | frameMismatch (function : String) (expected actual : Word)
  | console (error : ConsoleError)
deriving DecidableEq

def FaultKind.message : FaultKind → String
  | invalidAddress address => s!"invalid memory access at address {address.numeral}"
  | stackOverflow stackPointer heapEnd =>
    s!"stack overflow (stack pointer {stackPointer.numeral} below heap end {heapEnd.numeral})"
  | outOfMemory size => s!"out of memory allocating {size.numeral} bytes"
  | divisionByZero => "division by zero"
  | invalidJump address => s!"jump to address {address.numeral} which holds no instruction"
  | undefinedLabel label => s!"undefined label '{label}'"
  | duplicateLabel label => s!"label '{label}' is defined more than once"
  | frameMismatch function expected actual =>
    s!"stack pointer {actual.numeral} does not match the frame of '{function}' " ++
      s!"(expected {expected.numeral})"
  | console error => "I/O error: " ++ error.message

/-- A fault with the labels of the active functions, the innermost first. -/
structure Fault where
  kind : FaultKind
  callStack : List String
deriving DecidableEq

namespace Fault

def stackLines (number : Nat) : List String → List String
  | [] => []
  | label :: labels => s!"\n    {number}: {label}" :: stackLines (number + 1) labels

def message (fault : Fault) : String :=
  let stack := if fault.callStack.isEmpty then []
    else "\n  call stack:" :: stackLines 0 fault.callStack
  "runtime error: " ++ fault.kind.message ++ String.join stack

end Fault

end NestedFun
