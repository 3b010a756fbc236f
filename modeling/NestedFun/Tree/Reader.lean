import NestedFun.Token.Lexer
import NestedFun.Tree.Basic

namespace NestedFun

/-!
# Taking tokens one by one

A reader holds the tokens that are left and the number of the next node. Whatever takes tokens says
in its type that fewer are left, so every parser built from it ends.
-/

structure Reader where
  tokens : Tokens
  nextId : NodeId

namespace Reader

def ofText (cs : List Char) : Reader := ⟨.ofText cs, 0⟩

/-- How many tokens are left, the end of the file not counted. -/
def size (r : Reader) : Nat := r.tokens.list.length

/-- The reader after a node has been numbered. -/
def bump (r : Reader) : Reader := { r with nextId := r.nextId + 1 }

@[simp] theorem size_bump (r : Reader) : r.bump.size = r.size := rfl

theorem size_le_self (r : Reader) : r.size ≤ r.size := Nat.le_refl r.size

theorem size_lt_trans {r r₁ r₂ : Reader} (h₁ : r₁.size < r.size) (h₂ : r₂.size < r₁.size) :
    r₂.size < r.size := Nat.lt_trans h₂ h₁

theorem size_lt_of_le {r r₁ r₂ : Reader} (h₁ : r₁.size < r.size) (h₂ : r₂.size ≤ r₁.size) :
    r₂.size < r.size := Nat.lt_of_le_of_lt h₂ h₁

abbrev Shorter (r : Reader) := { r' : Reader // r'.size < r.size }

abbrev NoLonger (r : Reader) := { r' : Reader // r'.size ≤ r.size }

/-- The outcome of reading something that has at least one token. -/
abbrev Parsed (α : Type) (r : Reader) := Except CompileError (α × r.Shorter)

/-- The outcome of reading something that may be empty. -/
abbrev ParsedTail (α : Type) (r : Reader) := Except CompileError (α × r.NoLonger)

def peek (r : Reader) : Except CompileError Token :=
  match r.tokens.list with
  | [] => r.tokens.ending
  | token :: _ => .ok token

def unexpected (wanted : Wanted) (found : Token) : CompileError :=
  ⟨found.span, .syntactic (.expected wanted found.kind)⟩

/-- Takes the next token if `select` has a value for its kind. -/
def accept? {β : Type} (r : Reader) (select : TokenKind → Option β) :
    Except CompileError (Option (Token × β × r.Shorter)) :=
  match h : r.tokens.list with
  | [] => r.tokens.ending.map fun _ => none
  | token :: rest =>
    match select token.kind with
    | none => .ok none
    | some b =>
      .ok (some (token, b, ⟨{ r with tokens.list := rest }, by simp [size, h]⟩))

/-- Takes the next token, for whose kind `select` must have a value. -/
def require {β : Type} (r : Reader) (wanted : Wanted) (select : TokenKind → Option β) :
    Parsed (Token × β) r := do
  match ← r.accept? select with
  | some (token, b, shorter) => return ((token, b), shorter)
  | none => throw (unexpected wanted (← r.peek))

def only (kind : TokenKind) (found : TokenKind) : Option Unit :=
  if found = kind then some () else none

def expect (r : Reader) (kind : TokenKind) : Parsed Token r := do
  let ((token, _), shorter) ← r.require (.token kind) (only kind)
  return (token, shorter)

def commaTail {α : Type} (item : (r : Reader) → Parsed α r) (r : Reader) :
    ParsedTail (List α) r := do
  match ← r.accept? (only .comma) with
  | none => return ([], ⟨r, r.size_le_self⟩)
  | some (_, _, ⟨r₁, h₁⟩) =>
    let (x, ⟨r₂, h₂⟩) ← item r₁
    let (xs, ⟨r₃, h₃⟩) ← commaTail item r₂
    return (x :: xs, ⟨r₃, Nat.le_of_lt (size_lt_of_le (size_lt_trans h₁ h₂) h₃)⟩)
termination_by r.size

def commaList {α : Type} (item : (r : Reader) → Parsed α r) (r : Reader) :
    Parsed (List α) r := do
  let (x, ⟨r₁, h₁⟩) ← item r
  let (xs, ⟨r₂, h₂⟩) ← commaTail item r₁
  return (x :: xs, ⟨r₂, size_lt_of_le h₁ h₂⟩)

end Reader

end NestedFun
