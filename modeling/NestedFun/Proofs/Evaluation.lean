import NestedFun.Machine.SystemFunction
import NestedFun.Proofs.InitialContents

namespace NestedFun

/-!
# Evaluation

What programs without pointers mean, said on their syntax trees. Every call and every block has a
record of the names that it declares; a name stands for what the innermost record that has it says,
and a function runs among the records around its definition. Operands and arguments are evaluated
from right to left.
-/

/-- What a name stands for: a variable with its value, or a function. -/
inductive Cell where
  | value (w : Word)
  | function (head : FunctionHead) (body : List Statement)

/-- The names that a call, a block or the program declares. -/
abbrev Record := List (String × Cell)

namespace Record

def assign (name : String) (w : Word) : Record → Record
  | [] => []
  | entry :: record =>
    if entry.1 = name then (name, .value w) :: record else entry :: assign name w record

def ofParameters (parameters : List Parameter) (values : List Word) : Record :=
  List.zipWith (fun parameter w => (parameter.name.text, .value w)) parameters values

/-- The record of definitions, before anything is assigned to. Without pointers only the first word
of a variable can be reached. -/
def ofDefinitions (definitions : List Definition) : Record :=
  definitions.map fun
    | .func head body => (head.name.text, .function head body)
    | .var head => (head.name.text, .value (head.words.headD 0))

end Record

/-- What an evaluation reads and changes: the records around a place, the innermost first, and the
console. -/
structure Store where
  records : List Record
  input : List UInt8
  output : Output

/-- Why an evaluation stops without a result: the program has ended with an exit code, a fault, its
steps are used up, or it is none that evaluation describes. -/
inductive Halt where
  | exited (code : Word)
  | faulted (kind : FaultKind)
  | unfinished
  | undescribed

abbrev Eval := EStateM Halt Store

/-- The records inside the one that declares a name, what it declares, and the records from it on. -/
def splitAt? : List Record → String → Option (List Record × Cell × List Record)
  | [], _ => none
  | record :: records, name =>
    match record.lookup name with
    | some cell => some ([], cell, record :: records)
    | none => (splitAt? records name).map fun (inner, cell, outer) => (record :: inner, cell, outer)

def assignIn (name : String) (w : Word) : List Record → List Record
  | [] => []
  | record :: records =>
    match record.lookup name with
    | some _ => record.assign name w :: records
    | none => record :: assignIn name w records

namespace Eval

theorem bind_eq {α β : Type} (f : Eval α) (g : α → Eval β) (store : Store) :
    (f >>= g) store = match f store with
      | .ok v store' => g v store'
      | .error e store' => .error e store' := by
  show EStateM.bind f g store = _
  rw [EStateM.bind]
  cases f store <;> rfl

def readVariable (name : String) : Eval Word := do
  match splitAt? (← get).records name with
  | some (_, .value w, _) => return w
  | _ => throw .undescribed

def assignVariable (name : String) (w : Word) : Eval Unit :=
  modify fun store => { store with records := assignIn name w store.records }

def write (bytes : List UInt8) : Eval Unit := do
  let complete ← modifyGet fun store =>
    let (output, complete) := store.output.write bytes
    (complete, { store with output })
  if !complete then throw (.faulted (.console .outputFull))

/-- Runs something among other records, of which the first belongs to it alone. -/
def inside (record : Record) (inner outer : List Record) (run : Eval Word) : Eval Word := do
  modify fun store => { store with records := record :: outer }
  let w ← run
  modify fun store => { store with records := inner ++ store.records.tail }
  return w

/-- A system function; those that deal with addresses are not described. -/
def system : SystemFunction → List Word → Eval Word
  | .exit, [code] => throw (.exited code)
  | .getint, [] => do
    let line ← modifyGet fun store =>
      let (line, rest) := splitLine store.input
      (line, { store with input := rest })
    match readInteger line with
    | .ok value => return value
    | .error error => throw (.faulted (.console error))
  | .putint, [value] => do
    write value.numeral.toUTF8.toList
    return 0
  | .getchr, [] => do
    match ← modifyGet fun store => (store.input.head?, { store with input := store.input.tail }) with
    | some b => return .ofInt b.toNat
    | none => return -1
  | .putchr, [value] => do
    write [value.toUInt32.toUInt8]
    return 0
  | .del, [_] => return 0
  | _, _ => throw .undescribed

/-- Calls the function that a name stands for; `run` evaluates its statements. -/
def call (run : List Statement → Eval Word) (name : String) (arguments : List Word) :
    Eval Word := do
  match splitAt? (← get).records name with
  | some (inner, .function head body, outer) =>
    if head.parameters.length ≠ arguments.length then throw .undescribed
    else if body.isEmpty then
      match SystemFunction.ofName? head.name.text with
      | some function => system function arguments
      | none => throw .undescribed
    else inside (.ofParameters head.parameters arguments) inner outer (run body)
  | _ => throw .undescribed

end Eval

def BinaryKind.apply : BinaryKind → Word → Word → Except FaultKind Word
  | add, x, y => .ok (x + y)
  | subtract, x, y => .ok (x - y)
  | multiply, x, y => .ok (x * y)
  | divide, x, y => if y = 0 then .error .divisionByZero else .ok (x / y)
  | modulus, x, y => if y = 0 then .error .divisionByZero else .ok (x % y)
  | equal, x, y => .ok (.ofBool (x = y))
  | notEqual, x, y => .ok (.ofBool (x ≠ y))
  | less, x, y => .ok (.ofBool (x < y))
  | lessEqual, x, y => .ok (.ofBool (x ≤ y))
  | greater, x, y => .ok (.ofBool (x > y))
  | greaterEqual, x, y => .ok (.ofBool (x ≥ y))
  | and, x, y => .ok (.ofBool (x ≠ 0 && y ≠ 0))
  | or, x, y => .ok (.ofBool (x ≠ 0 || y ≠ 0))

section

variable (run : List Statement → Eval Word)

mutual

/-- The value of an expression; `run` evaluates the statements of functions that are called. -/
def Expression.evaluate : Expression → Eval Word
  | .literal _ literal =>
    match literal.kind with
    | .integer | .character => return literal.words.headD 0
    | .string => throw .undescribed
  | .name _ name => Eval.readVariable name.text
  | .call _ callee arguments => do
    let values ← evaluateArguments arguments
    Eval.call run callee.text values
  | .unary _ operator operand =>
    match operator.kind with
    | .not => do return .ofBool ((← operand.evaluate) = 0)
    | .identity => operand.evaluate
    | .negate => do return -(← operand.evaluate)
    | .addressOf | .dereference => throw .undescribed
  | .binary _ operator left right => do
    let y ← right.evaluate
    let x ← left.evaluate
    match operator.kind.apply x y with
    | .ok w => return w
    | .error kind => throw (.faulted kind)

def evaluateArguments : List Expression → Eval (List Word)
  | [] => return []
  | argument :: arguments => do
    let others ← evaluateArguments arguments
    let first ← argument.evaluate
    return first :: others

end

mutual

/-- Carries out a statement. Its value is that of the last expression; statements that have none
count as 0. `run` also goes on with a loop whose condition holds. -/
def Statement.evaluate : Statement → Eval Word
  | .eval _ value => value.evaluate run
  | .assign _ target source => do
    let w ← source.evaluate run
    match target with
    | .name _ name =>
      Eval.assignVariable name.text w
      return 0
    | _ => throw .undescribed
  | .branch _ condition positive negative => do
    let w ← condition.evaluate run
    let _ ← if w ≠ 0 then evaluateStatements positive else evaluateStatements negative
    return 0
  | .loop node condition body => do
    let w ← condition.evaluate run
    if w ≠ 0 then
      let _ ← evaluateStatements body
      run [.loop node condition body]
    else return 0
  | .block _ definitions body => do
    let store ← get
    Eval.inside (.ofDefinitions definitions) [] store.records (evaluateStatements body)

def evaluateStatements : List Statement → Eval Word
  | [] => return 0
  | [statement] => statement.evaluate
  | statement :: statements => do
    let _ ← statement.evaluate
    evaluateStatements statements

end

end

/-- Carries out statements with at most so many calls and rounds of loops inside one another. -/
def evaluateUpTo : Nat → List Statement → Eval Word
  | 0, _ => throw .unfinished
  | n + 1, statements => evaluateStatements (evaluateUpTo n) statements

def Program.evaluate (program : Program) (fuel : Nat) (input : List UInt8) (output : Output) :
    EStateM.Result Halt Store Word :=
  Eval.call (evaluateUpTo fuel) "main" [] ⟨[.ofDefinitions program], input, output⟩

end NestedFun
