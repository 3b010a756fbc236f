import NestedFun.Text.Source
import NestedFun.Token.Lexeme

namespace NestedFun

/-!
# Compile errors

What can be wrong with a program text, each cause with its wording. An error always points at the
piece of text that it is about.
-/

/-- What the grammar asks for at some point. -/
inductive Wanted where
  | token (kind : TokenKind)
  | definition
  | expression
  | constant

def Wanted.describe : Wanted → String
  | token kind => kind.describe
  | definition => "'fun' or 'var'"
  | expression => "expression"
  | constant => "constant"

inductive SyntaxError where
  | expected (wanted : Wanted) (found : TokenKind)
  | integerTooLarge

def SyntaxError.message : SyntaxError → String
  | expected wanted found => s!"Expected {wanted.describe} but found {found.describe}."
  | integerTooLarge => "Illegal integer value."

/-- What keeps the names of a program from having a meaning. -/
inductive ScopeError where
  | duplicateDefinition (name : String)
  | duplicateParameter (name : String)
  | storageTooLarge
  | mainMissing
  | mainHasParameters
  | mainIsVariable
  | undeclared (name : String)
  | functionAsValue (name : String)
  | notFunction (name : String)
  | argumentCount (name : String) (expected given : Nat)
  | assignToValue
  | addressOfValue

def ScopeError.message : ScopeError → String
  | duplicateDefinition name => s!"Duplicate definition of '{name}'."
  | duplicateParameter name => s!"Duplicate parameter '{name}'."
  | storageTooLarge => "Illegal variable size."
  | mainMissing => "Missing function 'main'."
  | mainHasParameters => "Function 'main' must not have parameters."
  | mainIsVariable => "'main' must be a function."
  | undeclared name => s!"Undeclared name '{name}'."
  | functionAsValue name => s!"Function '{name}' cannot be used as a value."
  | notFunction name => s!"'{name}' is not a function."
  | argumentCount name expected given =>
    s!"Function '{name}' expects {expected} argument(s) but {given} were given."
  | assignToValue => "Cannot assign to a non-addressable expression."
  | addressOfValue => "Cannot take the address of a non-addressable expression."

inductive Cause where
  | lexical (error : LexicalError)
  | syntactic (error : SyntaxError)
  | scope (error : ScopeError)

def Cause.message : Cause → String
  | lexical error => error.message
  | syntactic error => error.message
  | scope error => error.message

structure CompileError where
  span : Span
  cause : Cause

namespace CompileError

def message (error : CompileError) : String :=
  error.cause.message

def render? (error : CompileError) (source : Source) : Option String :=
  source.annotate? error.span error.message

end CompileError

end NestedFun
