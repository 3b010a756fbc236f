import NestedFun.Layout.Basic

namespace NestedFun

/-!
# Listing of a layout

The frame of every function, and the place of every parameter and variable, indented below the
function that they belong to.
-/

def Access.describe (access : Access) : String :=
  let contents := (access.contents?.map fun contents => " inits " ++ contents.display).getD ""
  match access with
  | .relative offset depth size _ => s!"offset {offset} depth {depth} size {size}{contents}"
  | .absolute label size _ => s!"absolute {label} size {size}{contents}"

def Frame.describe (frame : Frame) : String :=
  s!"{frame.name} (label {frame.label}) depth {frame.depth} " ++
    s!"pars {frame.parametersSize} vars {frame.localsSize}"

def indent (level : Nat) : String :=
  String.ofList (List.replicate (4 * level) ' ')

def accessLine (layout : Layout) (level : Nat) (word : String) (id : NodeId) (name : Identifier) :
    Except InternalError String := do
  let access ← layout.access id
  return s!"{indent level}{word} {name.text} {access.describe}"

mutual

def Definition.layoutLines (layout : Layout) (level : Nat) :
    Definition → Except InternalError (List String)
  | .var head => do
    return [← accessLine layout level "var" head.id head.name]
  | .func head body => do
    let frame ← layout.frame head.id
    let parameters ← head.parameters.mapM fun parameter =>
      accessLine layout (level + 1) "par" parameter.id parameter.name
    let inner ← statementsLayoutLines layout (level + 1) body
    return s!"{indent level}fun {frame.describe}" :: parameters ++ inner

def definitionsLayoutLines (layout : Layout) (level : Nat) :
    List Definition → Except InternalError (List String)
  | [] => .ok []
  | definition :: definitions => do
    let first ← definition.layoutLines layout level
    let others ← definitionsLayoutLines layout level definitions
    return first ++ others

def Statement.layoutLines (layout : Layout) (level : Nat) :
    Statement → Except InternalError (List String)
  | .eval _ _ | .assign _ _ _ => .ok []
  | .branch _ _ positive negative => do
    let first ← statementsLayoutLines layout level positive
    let second ← statementsLayoutLines layout level negative
    return first ++ second
  | .loop _ _ body => statementsLayoutLines layout level body
  | .block _ definitions body => do
    let first ← definitionsLayoutLines layout level definitions
    let second ← statementsLayoutLines layout level body
    return first ++ second

def statementsLayoutLines (layout : Layout) (level : Nat) :
    List Statement → Except InternalError (List String)
  | [] => .ok []
  | statement :: statements => do
    let first ← statement.layoutLines layout level
    let others ← statementsLayoutLines layout level statements
    return first ++ others

end

def Program.layoutListing (program : Program) (layout : Layout) :
    Except InternalError String := do
  let lines ← definitionsLayoutLines layout 0 program
  return String.join (lines.map fun line => line ++ "\n")

end NestedFun
