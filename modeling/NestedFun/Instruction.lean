import NestedFun.Layout.Frame

namespace NestedFun

/-!
# Instructions

The instructions of the stack machine and the data that a program starts with, each with its text
and the number of bytes that it takes in its segment. Labels take none.
-/

inductive Register where
  | framePointer
deriving DecidableEq

namespace Register

def text : Register → String
  | framePointer => "FP"

def ofText? (s : String) : Option Register :=
  [framePointer].find? fun register => register.text = s

end Register

/-- The operators pop `y`, the top of the stack, and then `x` unless they are unary. The reversed
ones (`rsub`, `rdiv`, `rmod`) compute `y op x`, the others `x op y`. -/
inductive Operator where
  | add | mul | rsub | rdiv | rmod
  | equ | neq | lth | gth | leq | geq
  | and | or | not | neg
deriving DecidableEq

namespace Operator

def all : List Operator :=
  [add, mul, rsub, rdiv, rmod, equ, neq, lth, gth, leq, geq, and, or, not, neg]

def text : Operator → String
  | add => "ADD"
  | mul => "MUL"
  | rsub => "RSUB"
  | rdiv => "RDIV"
  | rmod => "RMOD"
  | equ => "EQU"
  | neq => "NEQ"
  | lth => "LTH"
  | gth => "GTH"
  | leq => "LEQ"
  | geq => "GEQ"
  | and => "AND"
  | or => "OR"
  | not => "NOT"
  | neg => "NEG"

def ofText? (s : String) : Option Operator :=
  all.find? fun operator => operator.text = s

def isUnary : Operator → Bool
  | not | neg => true
  | _ => false

end Operator

inductive Instruction where
  /-- Names the address of what follows. -/
  | label (name : String)
  /-- Pushes a constant. -/
  | push (value : Word)
  /-- Pops a number and moves the top of the stack by so many bytes; a negative one reserves. -/
  | popn
  /-- Pushes a register. -/
  | regn (register : Register)
  | oper (operator : Operator)
  /-- Replaces the address on top by the word that is stored there. -/
  | load
  /-- Pops an address and then a value, and stores the value there. -/
  | save
  /-- Pushes the address of a label. -/
  | name (label : String)
  | call (frame : Frame)
  | retn (frame : Frame)
  | ujmp
  | cjmp
  /-- Pops the address of encoded contents and a destination, and expands the contents there. -/
  | init
deriving DecidableEq

namespace Instruction

def text : Instruction → String
  | label l => l ++ ":"
  | push value => "PUSH " ++ value.numeral
  | popn => "POPN"
  | regn register => "REGN " ++ register.text
  | oper operator => "OPER " ++ operator.text
  | load => "LOAD"
  | save => "SAVE"
  | name l => "NAME " ++ l
  | call frame => "CALL " ++ frame.label
  | retn frame => "RETN " ++ frame.label
  | ujmp => "UJMP"
  | cjmp => "CJMP"
  | init => "INIT"

def size : Instruction → Nat
  | label _ => 0
  | push _ | name _ => 1 + wordSize
  | _ => 1

end Instruction

inductive Datum where
  | label (name : String)
  | word (value : Word)
  /-- Reserves bytes, which hold the expanded contents, if any, when the program starts. -/
  | reserve (size : Word) (contents : Option Contents)
deriving DecidableEq

namespace Datum

def text : Datum → String
  | label l => l ++ ":"
  | word value => "DATA " ++ value.numeral
  | reserve size none => "SIZE " ++ size.numeral
  | reserve size (some contents) => "SIZE " ++ size.numeral ++ " " ++ contents.display

def size : Datum → Int
  | label _ => 0
  | word _ => wordSize
  | reserve size _ => size.toInt

end Datum

/-- Something with the span of the text that it was generated for. -/
structure Located (α : Type) where
  span : Span
  item : α
deriving DecidableEq

abbrev Code := List (Located Instruction)

abbrev Data := List (Located Datum)

def Code.spanning (span : Span) (instructions : List Instruction) : Code :=
  instructions.map fun instruction => ⟨span, instruction⟩

def Data.spanning (span : Span) (data : List Datum) : Data :=
  data.map fun datum => ⟨span, datum⟩

end NestedFun
