import NestedFun.Text.Span
import NestedFun.Word

namespace NestedFun

/-!
# Syntax trees

A program is a list of definitions; functions hold statements, and statements hold expressions and
further definitions. Every node has a number of its own and the span of text that it was read from.
-/

/-- The number of a node; numbers follow the order in which nodes are completed. -/
abbrev NodeId := Nat

/-- What a node keeps of its number: the last 32 bits. -/
def NodeId.kept (id : NodeId) : UInt32 := UInt32.ofNat id

structure Node where
  id : NodeId
  span : Span
deriving DecidableEq

structure Identifier extends Node where
  text : String
deriving DecidableEq

inductive LiteralKind where
  | integer | character | string
deriving DecidableEq

/-- A constant: the digits of an integer as written, or the characters that a character or string
constant stands for. -/
structure Literal extends Node where
  kind : LiteralKind
  text : String
deriving DecidableEq

def Literal.words (literal : Literal) : List Word :=
  match literal.kind with
  | .integer => [Word.ofInt (decimalValue literal.text.toList)]
  | .character | .string => literal.text.toList.map Word.ofChar

structure Parameter extends Node where
  name : Identifier
deriving DecidableEq

/-- A constant of a variable's initial contents, to be repeated `count` times. -/
structure Initializer extends Node where
  count : Option Literal
  value : Literal
deriving DecidableEq

def Initializer.repeats (initializer : Initializer) : Word :=
  match initializer.count with
  | some count => count.words.headD 1
  | none => 1

structure Variable extends Node where
  name : Identifier
  initializers : List Initializer
deriving DecidableEq

inductive UnaryKind where
  | not | identity | negate | addressOf | dereference
deriving DecidableEq

structure UnaryOperator extends Node where
  kind : UnaryKind
deriving DecidableEq

inductive BinaryKind where
  | add | subtract | multiply | divide | modulus
  | equal | notEqual | less | lessEqual | greater | greaterEqual
  | and | or
deriving DecidableEq

structure BinaryOperator extends Node where
  kind : BinaryKind
deriving DecidableEq

inductive Expression where
  | literal (node : Node) (value : Literal)
  | name (node : Node) (name : Identifier)
  | call (node : Node) (callee : Identifier) (arguments : List Expression)
  | unary (node : Node) (operator : UnaryOperator) (operand : Expression)
  | binary (node : Node) (operator : BinaryOperator) (left right : Expression)

namespace Expression

def node : Expression → Node
  | literal node _ | name node _ | call node _ _ | unary node _ _ | binary node _ _ _ => node

/-- Whether an expression denotes a place in memory: a name or a dereference. -/
def isPlace : Expression → Bool
  | name _ _ => true
  | unary _ operator _ => operator.kind = .dereference
  | _ => false

end Expression

structure FunctionHead extends Node where
  name : Identifier
  parameters : List Parameter
deriving DecidableEq

mutual

/-- A function with an empty body is only declared. -/
inductive Definition where
  | func (head : FunctionHead) (body : List Statement)
  | var (head : Variable)

/-- A branch without an `else` has an empty negative part; a block is a `let`. -/
inductive Statement where
  | eval (node : Node) (value : Expression)
  | assign (node : Node) (target source : Expression)
  | branch (node : Node) (condition : Expression) (positive negative : List Statement)
  | loop (node : Node) (condition : Expression) (body : List Statement)
  | block (node : Node) (definitions : List Definition) (body : List Statement)

end

namespace Definition

def node : Definition → Node
  | func head _ => head.toNode
  | var head => head.toNode

def name : Definition → Identifier
  | func head _ => head.name
  | var head => head.name

end Definition

def Statement.node : Statement → Node
  | eval node _ | assign node _ _ | branch node _ _ _ | loop node _ _ | block node _ _ => node

abbrev Program := List Definition

end NestedFun
