import NestedFun.Segment.Fragments

namespace NestedFun

/-!
# Segments

A program for the machine: one list of instructions and one list of data. The code starts with a
call of `main`, whose result is passed to `exit`; then follow the functions, each before those
nested in it. The data are the variables in source order and then the string constants.
-/

structure Segments where
  code : Code
  data : Data
deriving DecidableEq

namespace Segments

def append (a b : Segments) : Segments :=
  ⟨a.code ++ b.code, a.data ++ b.data⟩

instance : Append Segments := ⟨append⟩

end Segments

mutual

/-- The fragments of a definition and of all definitions inside it. -/
def Definition.collect (fragments : Fragments) : Definition → Except InternalError Segments
  | .var head =>
    match fragments.storage[head.id]? with
    | some data => .ok ⟨[], data⟩
    | none => .error (.missingData head.name.text)
  | .func head body => do
    let inner ← collectStatements fragments body
    return ⟨(fragments.functions[head.id]?).getD [], []⟩ ++ inner

def collectDefinitions (fragments : Fragments) :
    List Definition → Except InternalError Segments
  | [] => .ok ⟨[], []⟩
  | definition :: definitions => do
    let first ← definition.collect fragments
    let others ← collectDefinitions fragments definitions
    return first ++ others

def Statement.collect (fragments : Fragments) : Statement → Except InternalError Segments
  | .eval _ _ | .assign _ _ _ => .ok ⟨[], []⟩
  | .branch _ _ positive negative => do
    let first ← collectStatements fragments positive
    let second ← collectStatements fragments negative
    return first ++ second
  | .loop _ _ body => collectStatements fragments body
  | .block _ definitions body => do
    let first ← collectDefinitions fragments definitions
    let second ← collectStatements fragments body
    return first ++ second

def collectStatements (fragments : Fragments) : List Statement → Except InternalError Segments
  | [] => .ok ⟨[], []⟩
  | statement :: statements => do
    let first ← statement.collect fragments
    let others ← collectStatements fragments statements
    return first ++ others

end

/-- The number of the first function at the top level that has the given name. -/
def Program.functionNamed? : Program → String → Option NodeId
  | [], _ => none
  | .func head _ :: definitions, name =>
    if head.name.text = name then some head.id else functionNamed? definitions name
  | .var _ :: definitions, name => functionNamed? definitions name

def Program.frameNamed (program : Program) (layout : Layout) (name : String) :
    Except InternalError Frame :=
  match program.functionNamed? name with
  | some id => layout.frame id
  | none => .error (.missingFunction name)

/-- Calls `main` and hands its result to `exit`. -/
def entryCode (main exit : Frame) : Code :=
  Code.spanning .nowhere
    [.push 0, .name main.label, .call main, .push 0, .name exit.label, .call exit]

def Program.assemble (program : Program) (layout : Layout) (fragments : Fragments) :
    Except InternalError Segments := do
  let main ← program.frameNamed layout "main"
  let exit ← program.frameNamed layout "exit"
  let body ← collectDefinitions fragments program
  return ⟨entryCode main exit, []⟩ ++ body ++ ⟨[], fragments.strings.flatten⟩

/-- The sum of sizes if all sums on the way fit words. -/
def totalSize (sizes : List Int) : Except InternalError Int :=
  match sizes.foldlM (fun total size => checked? (total + size)) 0 with
  | some total => .ok total
  | none => .error .segmentTooLarge

/-- Pairs every item with its address: `start` and the sizes of the items before it. -/
def addressed {α : Type} (size : α → Int) : Int → List α → List (Int × α)
  | _, [] => []
  | start, item :: items => (start, item) :: addressed size (start + size item) items

namespace Segments

def codeSize (segments : Segments) : Except InternalError Int :=
  totalSize (segments.code.map fun instruction => (instruction.item.size : Int))

def dataSize (segments : Segments) : Except InternalError Int :=
  totalSize (segments.data.map fun datum => datum.item.size)

def addressedCode (segments : Segments) : List (Int × Located Instruction) :=
  addressed (fun instruction => (instruction.item.size : Int)) 0 segments.code

/-- The data with their addresses if the segment starts at `start`. -/
def addressedData (segments : Segments) (start : Int) : List (Int × Located Datum) :=
  addressed (fun datum => datum.item.size) start segments.data

end Segments

end NestedFun
