import NestedFun.Tree.Basic

namespace NestedFun

/-!
# Internal errors

What can go wrong between a tree and its segments. No program that resolves runs into these: they
tell of a tree that was not resolved, of a table that does not belong to it, or of sizes beyond the
address space.
-/

inductive InternalError where
  | contentsOverflow (words : List Word)
  | localsOverflow (label : String)
  | frameOverflow (label : String)
  | additionOverflow
  | missingFrame (id : NodeId)
  | missingAccess (id : NodeId)
  | unresolved (id : NodeId)
  | calleeTooDeep (caller : String) (callerDepth : Nat) (callee : String) (calleeDepth : Nat)
  | variableTooDeep (depth : Nat) (reader : String)
  | noAddress (id : NodeId)
  | globalInFrame (name : String)
  | localWithoutSlot (name : String)
  | missingFunction (name : String)
  | missingData (name : String)
  | segmentTooLarge

def NodeId.display (id : NodeId) : String := s!"NodeId({id.kept})"

def InternalError.message : InternalError → String
  | contentsOverflow words => s!"initializer {Word.listing words} overflows a word"
  | localsOverflow label => s!"locals of '{label}' overflow a word"
  | frameOverflow label => s!"frame of '{label}' overflows a word"
  | additionOverflow => "attempt to add with overflow"
  | missingFrame id => s!"no frame for function node {NodeId.display id}"
  | missingAccess id => s!"no access for definition node {NodeId.display id}"
  | unresolved id => s!"unresolved name at node {NodeId.display id}"
  | calleeTooDeep caller callerDepth callee calleeDepth =>
    s!"'{caller}' at depth {callerDepth} cannot see '{callee}' at depth {calleeDepth}"
  | variableTooDeep depth reader => s!"variable at depth {depth} read from shallower '{reader}'"
  | noAddress id => s!"node {NodeId.display id} has no address"
  | globalInFrame name => s!"global variable '{name}' has a relative access"
  | localWithoutSlot name => s!"local variable '{name}' has no frame slot"
  | missingFunction name => s!"program has no top level function '{name}'"
  | missingData name => s!"no data generated for '{name}'"
  | segmentTooLarge => "segment does not fit the address space"

/-- A number that has to fit a word, or else there is an error. -/
def fitting (n : Int) (error : InternalError) : Except InternalError Int :=
  match checked? n with
  | some n => .ok n
  | none => .error error

end NestedFun
