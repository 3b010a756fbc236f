import NestedFun.Instruction
import NestedFun.Layout.Basic
import NestedFun.Segment.Label

namespace NestedFun

/-!
# Fragments

The pieces that segments are put together from: the code of every function with a body, the data of
every variable, and the texts of string constants. An expression leaves one word on the stack. A
statement leaves nothing, unless its value is kept, and then one word. Operands and arguments are
evaluated from right to left, so that the operators of the machine see them in reverse.
-/

structure Generated where
  labels : LabelSupply := {}
  functions : Array (NodeId × Code) := #[]
  storage : Array (NodeId × Data) := #[]
  strings : Array Data := #[]

/-- Generating code uses up labels, emits fragments on the side and can run into internal errors. -/
abbrev Generation := StateT Generated (Except InternalError)

namespace Generation

def freshDataLabel : Generation String :=
  modifyGet fun state =>
    let (label, labels) := state.labels.data
    (label, { state with labels })

def freshBranchLabels : Generation BranchLabels :=
  modifyGet fun state =>
    let (branch, labels) := state.labels.branch
    (branch, { state with labels })

def freshLoopLabels : Generation LoopLabels :=
  modifyGet fun state =>
    let (loop, labels) := state.labels.loop
    (loop, { state with labels })

def emitFunction (id : NodeId) (code : Code) : Generation Unit :=
  modify fun state => { state with functions := state.functions.push (id, code) }

def emitVariable (id : NodeId) (data : Data) : Generation Unit :=
  modify fun state => { state with storage := state.storage.push (id, data) }

def emitString (data : Data) : Generation Unit :=
  modify fun state => { state with strings := state.strings.push data }

end Generation

/-- What the names of a program refer to and where everything is stored. -/
structure Context where
  definitions : Std.TreeMap NodeId NodeId
  layout : Layout

namespace Context

def definitionOf (context : Context) (id : NodeId) : Except InternalError NodeId :=
  match context.definitions[id]? with
  | some definition => .ok definition
  | none => .error (.unresolved id)

def calleeOf (context : Context) (id : NodeId) : Except InternalError Frame := do
  context.layout.frame (← context.definitionOf id)

def accessOf (context : Context) (id : NodeId) : Except InternalError Access := do
  context.layout.access (← context.definitionOf id)

end Context

/-- The operator that computes `left op right` when the right operand was pushed first. -/
def BinaryKind.stackOperator : BinaryKind → Operator
  | add => .add
  | subtract => .rsub
  | multiply => .mul
  | divide => .rdiv
  | modulus => .rmod
  | equal => .equ
  | notEqual => .neq
  | less => .gth
  | lessEqual => .geq
  | greater => .lth
  | greaterEqual => .leq
  | and => .and
  | or => .or

/-- Pushes the address of the frame that is `hops` static links away. -/
def frameAddress (hops : Nat) : List Instruction :=
  .regn .framePointer :: List.replicate hops .load

def nameAddress (context : Context) (frame : Frame) (node : Node) :
    Except InternalError Code := do
  match ← context.accessOf node.id with
  | .absolute label _ _ => return Code.spanning node.span [.name label]
  | .relative offset depth _ _ =>
    if depth ≤ frame.depth then
      return Code.spanning node.span
        (frameAddress (frame.depth - depth) ++ [.push (.ofInt offset), .oper .add])
    else throw (.variableTooDeep depth frame.name)

/-- Code that calls a function once its arguments have been pushed. The static link of the callee is
the frame of the function around it. -/
def callCode (frame callee : Frame) (node : Node) : Except InternalError Code :=
  if callee.depth ≤ frame.depth + 1 then
    .ok (Code.spanning node.span
      (frameAddress (frame.depth + 1 - callee.depth) ++ [.name callee.label, .call callee]))
  else .error (.calleeTooDeep frame.name frame.depth callee.name callee.depth)

mutual

def Expression.value (context : Context) (frame : Frame) : Expression → Generation Code
  | .literal node literal => do
    match literal.kind with
    | .integer | .character => return Code.spanning node.span (literal.words.map .push)
    | .string =>
      let label ← Generation.freshDataLabel
      Generation.emitString
        (Data.spanning node.span (.label label :: (literal.words ++ [0]).map .word))
      return Code.spanning node.span [.name label]
  | .name node _ => do
    let address ← nameAddress context frame node
    return address ++ Code.spanning node.span [.load]
  | .call node _ arguments => do
    let callee ← context.calleeOf node.id
    let pushed ← argumentValues context frame arguments
    let call ← callCode frame callee node
    return pushed ++ call
  | .unary node operator operand => do
    match operator.kind with
    | .not => return (← operand.value context frame) ++ Code.spanning node.span [.oper .not]
    | .negate => return (← operand.value context frame) ++ Code.spanning node.span [.oper .neg]
    | .identity => operand.value context frame
    | .addressOf => operand.address context frame
    | .dereference => return (← operand.value context frame) ++ Code.spanning node.span [.load]
  | .binary _ operator left right => do
    let rightValue ← right.value context frame
    let leftValue ← left.value context frame
    return rightValue ++ leftValue
      ++ Code.spanning operator.span [.oper operator.kind.stackOperator]

def Expression.address (context : Context) (frame : Frame) : Expression → Generation Code
  | .name node _ => nameAddress context frame node
  | .unary node operator operand =>
    if operator.kind = .dereference then operand.value context frame
    else throw (.noAddress node.id)
  | .literal node _ | .call node _ _ | .binary node _ _ _ => throw (.noAddress node.id)

/-- Code that leaves the values of arguments on the stack, the first on top. -/
def argumentValues (context : Context) (frame : Frame) : List Expression → Generation Code
  | [] => return []
  | argument :: arguments => do
    let others ← argumentValues context frame arguments
    let first ← argument.value context frame
    return others ++ first

end

def emitGlobal (context : Context) (head : Variable) : Generation Unit := do
  match ← context.layout.access head.id with
  | .absolute label size contents =>
    Generation.emitVariable head.id
      (Data.spanning head.span [.label label, .reserve (.ofInt size) (some contents)])
  | .relative _ _ _ _ => throw (.globalInFrame head.name.text)

/-- Emits the encoded contents of a local variable; yields code that expands them into the frame. -/
def emitLocal (context : Context) (head : Variable) : Generation Code := do
  match ← context.layout.access head.id with
  | .relative offset _ _ (some contents) =>
    let label ← Generation.freshDataLabel
    Generation.emitVariable head.id
      (Data.spanning head.span (.label label :: contents.words.map .word))
    return Code.spanning head.span
      [.regn .framePointer, .push (.ofInt offset), .oper .add, .name label, .init]
  | _ => throw (.localWithoutSlot head.name.text)

/-- What a statement without a value of its own leaves if its value is kept. -/
def keptZero (keep : Bool) (span : Span) : Code :=
  if keep then Code.spanning span [.push 0] else []

mutual

/-- Code of a statement; `keep` says whether it leaves its value on the stack. -/
def Statement.generate (context : Context) (frame : Frame) (keep : Bool) :
    Statement → Generation Code
  | .eval node value => do
    let code ← value.value context frame
    return code ++ if keep then [] else Code.spanning node.span [.push 4, .popn]
  | .assign node target source => do
    let value ← source.value context frame
    let address ← target.address context frame
    return value ++ address ++ Code.spanning node.span [.save] ++ keptZero keep node.span
  | .branch node condition positive negative => do
    let labels ← Generation.freshBranchLabels
    let positiveCode ← generateStatements context frame false positive
    let negativeCode ← generateStatements context frame false negative
    let conditionCode ← condition.value context frame
    return List.flatten [
      Code.spanning node.span [.name labels.condition, .ujmp, .label labels.positive],
      positiveCode,
      Code.spanning node.span [.name labels.stop, .ujmp, .label labels.negative],
      negativeCode,
      Code.spanning node.span [.name labels.stop, .ujmp, .label labels.condition],
      conditionCode,
      Code.spanning node.span
        [.name labels.positive, .name labels.negative, .cjmp, .label labels.stop],
      keptZero keep node.span]
  | .loop node condition body => do
    let labels ← Generation.freshLoopLabels
    let conditionCode ← condition.value context frame
    let bodyCode ← generateStatements context frame false body
    return List.flatten [
      Code.spanning node.span [.label labels.condition],
      conditionCode,
      Code.spanning node.span [.name labels.body, .name labels.stop, .cjmp, .label labels.body],
      bodyCode,
      Code.spanning node.span [.name labels.condition, .ujmp, .label labels.stop],
      keptZero keep node.span]
  | .block _ definitions body => do
    let entry ← generateDefinitions context definitions
    let code ← generateStatements context frame keep body
    return entry ++ code

/-- Code of statements, of which only the last can keep its value. -/
def generateStatements (context : Context) (frame : Frame) (keep : Bool) :
    List Statement → Generation Code
  | [] => return keptZero keep .nowhere
  | [statement] => statement.generate context frame keep
  | statement :: statements => do
    let first ← statement.generate context frame false
    let others ← generateStatements context frame keep statements
    return first ++ others

/-- Emits the function or variable of a definition inside a function; yields the code to be executed
where the definition stands. -/
def Definition.generate (context : Context) : Definition → Generation Code
  | .var head => emitLocal context head
  | .func head body => do
    if body.isEmpty then return []
    let frame ← context.layout.frame head.id
    let bodyCode ← generateStatements context frame true body
    let reserved := Word.ofInt (headerSize - frame.localsSize)
    let dropped := Word.ofInt (frame.parametersSize - linkSize)
    Generation.emitFunction head.id
      (Code.spanning head.span [.label frame.label, .push reserved, .popn]
        ++ bodyCode
        ++ Code.spanning head.span [.push dropped, .retn frame])
    return []

def generateDefinitions (context : Context) : List Definition → Generation Code
  | [] => return []
  | definition :: definitions => do
    let first ← definition.generate context
    let others ← generateDefinitions context definitions
    return first ++ others

end

def Definition.emit (context : Context) : Definition → Generation Unit
  | .var head => emitGlobal context head
  | .func head body => do
    let _ ← (Definition.func head body).generate context

/-- The fragments of a program: the code of its functions, the storage of its variables, and its
string constants. -/
structure Fragments where
  functions : Std.TreeMap NodeId Code := ∅
  storage : Std.TreeMap NodeId Data := ∅
  strings : List Data := []

def Fragments.ofGenerated (generated : Generated) : Fragments where
  functions := generated.functions.foldl (fun table entry => table.insert entry.1 entry.2) ∅
  storage := generated.storage.foldl (fun table entry => table.insert entry.1 entry.2) ∅
  strings := generated.strings.toList

def Program.generate (context : Context) (labels : LabelSupply) (program : Program) :
    Except InternalError (Fragments × LabelSupply) := do
  let (_, generated) ← (program.forM (Definition.emit context)).run { labels }
  return (.ofGenerated generated, generated.labels)

/-- `generate` with the numbers of a counter. The counter has to go on behind every number, so there
is an error instead of the last one. -/
def Program.generateCounted (context : Context) (counter : LabelCounter) (program : Program) :
    Except InternalError (Fragments × LabelCounter) := do
  let (fragments, labels) ← program.generate context ⟨counter.next.toNat⟩
  if labels.next < UInt32.size then return (fragments, ⟨.ofNat labels.next⟩)
  else throw .additionOverflow

end NestedFun
