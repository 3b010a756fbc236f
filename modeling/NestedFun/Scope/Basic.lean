import NestedFun.Tree.Basic

namespace NestedFun

/-!
# Scopes

What names are bound to. Functions and blocks open scopes; the innermost scope that binds a name
decides what it means.
-/

/-- What a name is bound to. Parameters are variables. -/
inductive Binding where
  | function (id : NodeId) (span : Span) (parameterCount : Nat)
  | variable (id : NodeId) (span : Span)
deriving DecidableEq

abbrev Scope := List (String × Binding)

/-- Open scopes, the innermost first. -/
abbrev Scopes := List Scope

def Scopes.find? (scopes : Scopes) (name : String) : Option Binding :=
  scopes.findSome? fun scope => scope.lookup name

def Definition.binding : Definition → Binding
  | .func head _ => .function head.id head.name.span head.parameters.length
  | .var head => .variable head.id head.name.span

/-- The most bytes that all globals together, or all locals of one function, may take: 2 ^ 30. -/
def maxStorage : Nat := 1073741824

def Initializer.storage (initializer : Initializer) : Nat :=
  initializer.repeats.toInt.toNat * initializer.value.words.length * wordSize

def Variable.storage (head : Variable) : Nat :=
  head.initializers.foldr (fun i size => i.storage + size) 0

/-- The bytes that a definition takes in the storage around it; functions take none. -/
def Definition.storage : Definition → Nat
  | .func _ _ => 0
  | .var head => head.storage

end NestedFun
