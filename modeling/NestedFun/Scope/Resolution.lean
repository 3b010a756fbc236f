import Std.Data.TreeMap
import Std.Data.TreeSet
import NestedFun.Diagnostic
import NestedFun.Scope.Basic

namespace NestedFun

/-!
# Resolution

Which definition every name of a program refers to, and the rules that names have to keep: no scope
binds a name twice, variables are not called and functions are only called, with as many arguments
as they have parameters, and only places are assigned to or have their address taken. Variables
have to fit the storage of their function, or of the program.
-/

/-- What resolving has found out: for names and calls the definition that they refer to, and the
expressions that denote places. -/
structure Links where
  definitions : List (NodeId × NodeId) := []
  places : List NodeId := []

namespace Links

def append (a b : Links) : Links :=
  ⟨a.definitions ++ b.definitions, a.places ++ b.places⟩

instance : Append Links := ⟨append⟩

end Links

/-- The definition that each name and call refers to, and the places, by the number of the node. -/
structure Resolution where
  definitions : Std.TreeMap NodeId NodeId := ∅
  places : Std.TreeSet NodeId := ∅

namespace Resolution

/-- A table from pairs of an expression and a definition; later pairs win. -/
def ofPairs (pairs : List (NodeId × NodeId)) : Std.TreeMap NodeId NodeId :=
  pairs.foldl (fun table pair => table.insert pair.1 pair.2) ∅

def ofLinks (links : Links) : Resolution :=
  ⟨ofPairs links.definitions, links.places.foldl (fun places id => places.insert id) ∅⟩

def unnamedPlaces (resolution : Resolution) : List NodeId :=
  resolution.places.toList.filter fun id => !resolution.definitions.contains id

end Resolution

def scopeError (span : Span) (error : ScopeError) : CompileError :=
  ⟨span, .scope error⟩

/-- Adds storage to what is used already, up to the limit. -/
def reserve (used : Nat) (definition : Definition) : Except CompileError Nat :=
  if used + definition.storage ≤ maxStorage then .ok (used + definition.storage)
  else .error (scopeError definition.node.span .storageTooLarge)

/-- Binds definitions in a scope one after the other; yields the scope and the storage used. -/
def bindDefinitions (scope : Scope) (used : Nat) :
    List Definition → Except CompileError (Scope × Nat)
  | [] => .ok (scope, used)
  | definition :: definitions => do
    let name := definition.name
    if (scope.lookup name.text).isSome then
      throw (scopeError name.span (.duplicateDefinition name.text))
    let used ← reserve used definition
    bindDefinitions ((name.text, definition.binding) :: scope) used definitions

def bindParameters (scope : Scope) : List Parameter → Except CompileError Scope
  | [] => .ok scope
  | parameter :: parameters => do
    let name := parameter.name
    if (scope.lookup name.text).isSome then
      throw (scopeError name.span (.duplicateParameter name.text))
    bindParameters ((name.text, .variable parameter.id parameter.span) :: scope) parameters

def lookUp (scopes : Scopes) (name : Identifier) : Except CompileError Binding :=
  match scopes.find? name.text with
  | some binding => .ok binding
  | none => .error (scopeError name.span (.undeclared name.text))

mutual

def Expression.resolve (scopes : Scopes) : Expression → Except CompileError Links
  | .literal _ _ => .ok {}
  | .name node name => do
    match ← lookUp scopes name with
    | .variable id _ => return ⟨[(node.id, id)], [node.id]⟩
    | .function _ _ _ => throw (scopeError name.span (.functionAsValue name.text))
  | .call node callee arguments => do
    match ← lookUp scopes callee with
    | .variable _ _ => throw (scopeError callee.span (.notFunction callee.text))
    | .function id _ count =>
      if arguments.length ≠ count then
        throw (scopeError node.span (.argumentCount callee.text count arguments.length))
      let links ← resolveExpressions scopes arguments
      return ⟨[(node.id, id)], []⟩ ++ links
  | .unary node operator operand => do
    let links ← operand.resolve scopes
    match operator.kind with
    | .addressOf =>
      if operand.isPlace then return links
      else throw (scopeError operand.node.span .addressOfValue)
    | .dereference => return links ++ ⟨[], [node.id]⟩
    | .not | .identity | .negate => return links
  | .binary _ _ left right => do
    let leftLinks ← left.resolve scopes
    let rightLinks ← right.resolve scopes
    return leftLinks ++ rightLinks

def resolveExpressions (scopes : Scopes) : List Expression → Except CompileError Links
  | [] => .ok {}
  | expression :: expressions => do
    let links ← expression.resolve scopes
    let others ← resolveExpressions scopes expressions
    return links ++ others

end

mutual

def Definition.resolve (scopes : Scopes) : Definition → Except CompileError Links
  | .var _ => .ok {}
  | .func head body => do
    let scope ← bindParameters [] head.parameters
    let (links, _) ← resolveStatements (scope :: scopes) 0 body
    return links

def resolveDefinitions (scopes : Scopes) : List Definition → Except CompileError Links
  | [] => .ok {}
  | definition :: definitions => do
    let links ← definition.resolve scopes
    let others ← resolveDefinitions scopes definitions
    return links ++ others

/-- Resolves the names of a statement; yields also the storage used by the function so far. -/
def Statement.resolve (scopes : Scopes) (used : Nat) :
    Statement → Except CompileError (Links × Nat)
  | .eval _ value => do
    return (← value.resolve scopes, used)
  | .assign _ target source => do
    let sourceLinks ← source.resolve scopes
    let targetLinks ← target.resolve scopes
    if target.isPlace then return (sourceLinks ++ targetLinks, used)
    else throw (scopeError target.node.span .assignToValue)
  | .branch _ condition positive negative => do
    let conditionLinks ← condition.resolve scopes
    let (positiveLinks, used) ← resolveStatements scopes used positive
    let (negativeLinks, used) ← resolveStatements scopes used negative
    return (conditionLinks ++ positiveLinks ++ negativeLinks, used)
  | .loop _ condition body => do
    let conditionLinks ← condition.resolve scopes
    let (bodyLinks, used) ← resolveStatements scopes used body
    return (conditionLinks ++ bodyLinks, used)
  | .block _ definitions body => do
    let (scope, used) ← bindDefinitions [] used definitions
    let definitionLinks ← resolveDefinitions (scope :: scopes) definitions
    let (bodyLinks, used) ← resolveStatements (scope :: scopes) used body
    return (definitionLinks ++ bodyLinks, used)

def resolveStatements (scopes : Scopes) (used : Nat) :
    List Statement → Except CompileError (Links × Nat)
  | [] => .ok ({}, used)
  | statement :: statements => do
    let (links, used) ← statement.resolve scopes used
    let (others, used) ← resolveStatements scopes used statements
    return (links ++ others, used)

end

/-- The program starts at a function `main` without parameters. -/
def checkMain (scope : Scope) : Except CompileError Unit :=
  match scope.lookup "main" with
  | some (.function _ span count) =>
    if count = 0 then .ok () else .error (scopeError span .mainHasParameters)
  | some (.variable _ span) => .error (scopeError span .mainIsVariable)
  | none => .error (scopeError .nowhere .mainMissing)

/-- Resolves the names of a program. All definitions at the top level see one another. -/
def Program.resolve (program : Program) : Except CompileError Resolution := do
  let (scope, _) ← bindDefinitions [] 0 program
  checkMain scope
  let links ← resolveDefinitions [scope] program
  return .ofLinks links

end NestedFun
