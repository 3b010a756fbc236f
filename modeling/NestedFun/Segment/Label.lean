namespace NestedFun

/-!
# Numbered labels

Labels that the compiler makes up carry a number each. None of them can be the name of a function
or variable, because all contain a colon.
-/

structure BranchLabels where
  condition : String
  positive : String
  negative : String
  stop : String
deriving DecidableEq

structure LoopLabels where
  condition : String
  body : String
  stop : String
deriving DecidableEq

def dataLabel (number : Nat) : String := s!":{number}"

def branchLabels (number : Nat) : BranchLabels :=
  ⟨s!"if-cond:{number}", s!"then:{number}", s!"else:{number}", s!"end:{number}"⟩

def loopLabels (number : Nat) : LoopLabels :=
  ⟨s!"while-cond:{number}", s!"do:{number}", s!"end:{number}"⟩

/-- A supply of numbers for labels without an end; none is given out twice. -/
structure LabelSupply where
  next : Nat := 0
deriving DecidableEq

namespace LabelSupply

def data (supply : LabelSupply) : String × LabelSupply :=
  (dataLabel supply.next, ⟨supply.next + 1⟩)

def branch (supply : LabelSupply) : BranchLabels × LabelSupply :=
  (branchLabels supply.next, ⟨supply.next + 1⟩)

def loop (supply : LabelSupply) : LoopLabels × LabelSupply :=
  (loopLabels supply.next, ⟨supply.next + 1⟩)

end LabelSupply

structure LabelCounter where
  next : UInt32 := 0
deriving DecidableEq

end NestedFun
