import NestedFun.Tree.Reader

namespace NestedFun

/-!
# Parsing

Trees from tokens by recursive descent with one token of lookahead. Binary operators are read level
by level, the loosest first; all but comparisons chain, to the left. Parentheses leave no node. A
node is numbered when it is complete, an operator right after the expression that it belongs to.
-/

namespace Reader

def identifier (r : Reader) : Parsed Identifier r := do
  let (token, ⟨r₁, h₁⟩) ← r.expect .identifier
  return (⟨⟨r₁.nextId, token.span⟩, String.ofList token.lexeme⟩, ⟨r₁.bump, h₁⟩)

def literalKind? : TokenKind → Option LiteralKind
  | .integer => some .integer
  | .character => some .character
  | .string => some .string
  | _ => none

/-- Reads a constant; integers have to fit a word. -/
def literal (r : Reader) : Parsed Literal r := do
  let ((token, kind), ⟨r₁, h₁⟩) ← r.require .constant literalKind?
  match kind with
  | .integer =>
    if decimalValue token.lexeme < wordBound then
      return (⟨⟨r₁.nextId, token.span⟩, kind, String.ofList token.lexeme⟩, ⟨r₁.bump, h₁⟩)
    else throw ⟨token.span, .syntactic .integerTooLarge⟩
  | .character | .string =>
    let text := String.ofList (constantChars token.lexeme)
    return (⟨⟨r₁.nextId, token.span⟩, kind, text⟩, ⟨r₁.bump, h₁⟩)

def parameter (r : Reader) : Parsed Parameter r := do
  let (name, ⟨r₁, h₁⟩) ← r.identifier
  return (⟨⟨r₁.nextId, name.span⟩, name⟩, ⟨r₁.bump, h₁⟩)

/-- Reads a constant, or a count and a constant with a star between them. -/
def initializer (r : Reader) : Parsed Initializer r := do
  let (first, ⟨r₁, h₁⟩) ← r.literal
  let single : Initializer × r.Shorter :=
    (⟨⟨r₁.nextId, first.span⟩, none, first⟩, ⟨r₁.bump, h₁⟩)
  if first.kind = .integer then
    match ← r₁.accept? (only .star) with
    | none => return single
    | some (_, _, ⟨r₂, h₂⟩) =>
      let (value, ⟨r₃, h₃⟩) ← r₂.literal
      let span : Span := ⟨first.span.start, value.span.stop⟩
      return (⟨⟨r₃.nextId, span⟩, some first, value⟩, ⟨r₃.bump, by rw [size_bump]; omega⟩)
  else return single

def variableDefinition (r : Reader) : Parsed Variable r := do
  let (word, ⟨r₁, h₁⟩) ← r.expect (.keyword .kwVar)
  let (name, ⟨r₂, h₂⟩) ← r₁.identifier
  let (_, ⟨r₃, h₃⟩) ← r₂.expect .equals
  let (first, ⟨r₄, h₄⟩) ← r₃.initializer
  let (others, ⟨r₅, h₅⟩) ← commaTail initializer r₄
  let span : Span := ⟨word.span.start, (others.getLastD first).span.stop⟩
  return (⟨⟨r₅.nextId, span⟩, name, first :: others⟩, ⟨r₅.bump, by rw [size_bump]; omega⟩)

end Reader

/-- The levels of binary operators, from the loosest to the tightest. -/
inductive Level where
  | disjunction | conjunction | comparison | sum | product
deriving DecidableEq

namespace Level

def operator? : Level → TokenKind → Option BinaryKind
  | disjunction, .orOr => some .or
  | conjunction, .andAnd => some .and
  | comparison, .equalsEquals => some .equal
  | comparison, .bangEquals => some .notEqual
  | comparison, .less => some .less
  | comparison, .lessEquals => some .lessEqual
  | comparison, .greater => some .greater
  | comparison, .greaterEquals => some .greaterEqual
  | sum, .plus => some .add
  | sum, .minus => some .subtract
  | product, .star => some .multiply
  | product, .slash => some .divide
  | product, .percent => some .modulus
  | _, _ => none

def tighter? : Level → Option Level
  | disjunction => some conjunction
  | conjunction => some comparison
  | comparison => some sum
  | sum => some product
  | product => none

/-- Whether operators of a level can follow one another. -/
def chains (level : Level) : Bool :=
  level ≠ comparison

/-- How many levels are tighter. -/
def rank : Level → Nat
  | disjunction => 4
  | conjunction => 3
  | comparison => 2
  | sum => 1
  | product => 0

theorem rank_tighter {level level' : Level} (h : level.tighter? = some level') :
    level'.rank < level.rank := by
  cases level <;> cases h <;> decide

end Level

def prefixOperator? : TokenKind → Option UnaryKind
  | .bang => some .not
  | .plus => some .identity
  | .minus => some .negate
  | .caret => some .addressOf
  | _ => none

namespace Reader

/-- The tree of an operator between two operands. Its number comes before that of the operator. -/
def binaryNode (r : Reader) (token : Token) (kind : BinaryKind) (left right : Expression) :
    Expression :=
  .binary ⟨r.nextId, ⟨left.node.span.start, right.node.span.stop⟩⟩
    ⟨⟨r.nextId + 1, token.span⟩, kind⟩ left right

def prefixNode (r : Reader) (token : Token) (kind : UnaryKind) (operand : Expression) :
    Expression :=
  .unary ⟨r.nextId, ⟨token.span.start, operand.node.span.stop⟩⟩
    ⟨⟨r.nextId + 1, token.span⟩, kind⟩ operand

def dereferenceNode (r : Reader) (token : Token) (operand : Expression) : Expression :=
  .unary ⟨r.nextId, ⟨operand.node.span.start, token.span.stop⟩⟩
    ⟨⟨r.nextId + 1, token.span⟩, .dereference⟩ operand

def dereferences (operand : Expression) (r : Reader) : ParsedTail Expression r := do
  match ← r.accept? (only .caret) with
  | none => return (operand, ⟨r, Nat.le_refl _⟩)
  | some (token, _, ⟨r₁, h₁⟩) =>
    let (whole, ⟨r₂, h₂⟩) ← dereferences (r₁.dereferenceNode token operand) r₁.bump.bump
    return (whole, ⟨r₂, by simp only [size_bump] at h₂; omega⟩)
termination_by r.size

mutual

def binary (level : Level) (r : Reader) : Parsed Expression r := do
  let (left, ⟨r₁, h₁⟩) ← operand level r
  let (whole, ⟨r₂, h₂⟩) ← chain level left r₁
  return (whole, ⟨r₂, by omega⟩)
termination_by 16 * r.size + 2 * level.rank + 4

def operand (level : Level) (r : Reader) : Parsed Expression r :=
  match h : level.tighter? with
  | some level' =>
    have := Level.rank_tighter h
    binary level' r
  | none => prefixed r
termination_by 16 * r.size + 2 * level.rank + 3

/-- Reads the operators of a level, each with its right operand, behind a left operand. -/
def chain (level : Level) (left : Expression) (r : Reader) : ParsedTail Expression r := do
  match ← r.accept? level.operator? with
  | none => return (left, ⟨r, Nat.le_refl _⟩)
  | some (token, kind, ⟨r₁, h₁⟩) =>
    let (right, ⟨r₂, h₂⟩) ← operand level r₁
    let whole := r₂.binaryNode token kind left right
    if level.chains then
      let (longer, ⟨r₃, h₃⟩) ← chain level whole r₂.bump.bump
      return (longer, ⟨r₃, Nat.le_trans h₃ (Nat.le_of_lt (Nat.lt_trans h₂ h₁))⟩)
    else return (whole, ⟨r₂.bump.bump, Nat.le_of_lt (Nat.lt_trans h₂ h₁)⟩)
termination_by 16 * r.size + 2 * level.rank + 4
decreasing_by
  · omega
  · simp only [size_bump]
    omega

def prefixed (r : Reader) : Parsed Expression r := do
  match ← r.accept? prefixOperator? with
  | none => postfixed r
  | some (token, kind, ⟨r₁, h₁⟩) =>
    let (inner, ⟨r₂, h₂⟩) ← prefixed r₁
    return (r₂.prefixNode token kind inner, ⟨r₂.bump.bump, by simp only [size_bump]; omega⟩)
termination_by 16 * r.size + 2

def postfixed (r : Reader) : Parsed Expression r := do
  let (inner, ⟨r₁, h₁⟩) ← atom r
  let (whole, ⟨r₂, h₂⟩) ← dereferences inner r₁
  return (whole, ⟨r₂, by omega⟩)
termination_by 16 * r.size + 1

def atom (r : Reader) : Parsed Expression r := do
  let token ← r.peek
  match token.kind with
  | .identifier =>
    let (name, ⟨r₁, h₁⟩) ← r.identifier
    match ← r₁.accept? (only .openParen) with
    | none => return (.name ⟨r₁.nextId, name.span⟩ name, ⟨r₁.bump, h₁⟩)
    | some (_, _, ⟨r₂, h₂⟩) =>
      let (arguments, ⟨r₃, h₃⟩) ← arguments r₂
      let (close, ⟨r₄, h₄⟩) ← r₃.expect .closeParen
      let span : Span := ⟨name.span.start, close.span.stop⟩
      return (.call ⟨r₄.nextId, span⟩ name arguments, ⟨r₄.bump, by rw [size_bump]; omega⟩)
  | .openParen =>
    let (_, ⟨r₁, h₁⟩) ← r.expect .openParen
    let (inner, ⟨r₂, h₂⟩) ← binary .disjunction r₁
    let (_, ⟨r₃, h₃⟩) ← r₂.expect .closeParen
    return (inner, ⟨r₃, by omega⟩)
  | .integer | .character | .string =>
    let (value, ⟨r₁, h₁⟩) ← r.literal
    return (.literal ⟨r₁.nextId, value.span⟩ value, ⟨r₁.bump, h₁⟩)
  | _ => throw (unexpected .expression token)
termination_by 16 * r.size
decreasing_by
  · omega
  · simp only [Level.rank]
    omega

def arguments (r : Reader) : ParsedTail (List Expression) r := do
  let token ← r.peek
  if token.kind = .closeParen then return ([], ⟨r, Nat.le_refl _⟩)
  else
    let (first, ⟨r₁, h₁⟩) ← binary .disjunction r
    let (others, ⟨r₂, h₂⟩) ← moreArguments r₁
    return (first :: others, ⟨r₂, by omega⟩)
termination_by 16 * r.size + 13
decreasing_by
  · simp only [Level.rank]
    omega
  · omega

def moreArguments (r : Reader) : ParsedTail (List Expression) r := do
  match ← r.accept? (only .comma) with
  | none => return ([], ⟨r, Nat.le_refl _⟩)
  | some (_, _, ⟨r₁, h₁⟩) =>
    let (first, ⟨r₂, h₂⟩) ← binary .disjunction r₁
    let (others, ⟨r₃, h₃⟩) ← moreArguments r₂
    return (first :: others, ⟨r₃, by omega⟩)
termination_by 16 * r.size
decreasing_by
  · simp only [Level.rank]
    omega
  · omega

end

def expression (r : Reader) : Parsed Expression r :=
  binary .disjunction r

/-- Reads an expression, or an assignment of one expression to another. -/
def simpleStatement (r : Reader) : Parsed Statement r := do
  let (first, ⟨r₁, h₁⟩) ← r.expression
  match ← r₁.accept? (only .equals) with
  | none => return (.eval ⟨r₁.nextId, first.node.span⟩ first, ⟨r₁.bump, h₁⟩)
  | some (_, _, ⟨r₂, h₂⟩) =>
    let (source, ⟨r₃, h₃⟩) ← r₂.expression
    let span : Span := ⟨first.node.span.start, source.node.span.stop⟩
    return (.assign ⟨r₃.nextId, span⟩ first source, ⟨r₃.bump, by rw [size_bump]; omega⟩)

def parameters (r : Reader) : ParsedTail (List Parameter) r := do
  let token ← r.peek
  if token.kind = .closeParen then return ([], ⟨r, Nat.le_refl _⟩)
  else
    let (parameters, ⟨r₁, h₁⟩) ← commaList parameter r
    return (parameters, ⟨r₁, Nat.le_of_lt h₁⟩)

mutual

def statements (r : Reader) : Parsed (List Statement) r := do
  let (first, ⟨r₁, h₁⟩) ← statement r
  let (others, ⟨r₂, h₂⟩) ← moreStatements r₁
  return (first :: others, ⟨r₂, by omega⟩)
termination_by 2 * r.size + 1

def moreStatements (r : Reader) : ParsedTail (List Statement) r := do
  match ← r.accept? (only .comma) with
  | none => return ([], ⟨r, Nat.le_refl _⟩)
  | some (_, _, ⟨r₁, h₁⟩) =>
    let (first, ⟨r₂, h₂⟩) ← statement r₁
    let (others, ⟨r₃, h₃⟩) ← moreStatements r₂
    return (first :: others, ⟨r₃, by omega⟩)
termination_by 2 * r.size

def statement (r : Reader) : Parsed Statement r := do
  let token ← r.peek
  match token.kind with
  | .keyword .kwIf =>
    let (word, ⟨r₁, h₁⟩) ← r.expect (.keyword .kwIf)
    let (condition, ⟨r₂, h₂⟩) ← r₁.expression
    let (_, ⟨r₃, h₃⟩) ← r₂.expect (.keyword .kwThen)
    let (positive, ⟨r₄, h₄⟩) ← statements r₃
    let (negative, ⟨r₅, h₅⟩) ← elseBranch r₄
    let (close, ⟨r₆, h₆⟩) ← r₅.expect (.keyword .kwEnd)
    let span : Span := ⟨word.span.start, close.span.stop⟩
    return (.branch ⟨r₆.nextId, span⟩ condition positive negative,
      ⟨r₆.bump, by rw [size_bump]; omega⟩)
  | .keyword .kwWhile =>
    let (word, ⟨r₁, h₁⟩) ← r.expect (.keyword .kwWhile)
    let (condition, ⟨r₂, h₂⟩) ← r₁.expression
    let (_, ⟨r₃, h₃⟩) ← r₂.expect (.keyword .kwDo)
    let (body, ⟨r₄, h₄⟩) ← statements r₃
    let (close, ⟨r₅, h₅⟩) ← r₄.expect (.keyword .kwEnd)
    let span : Span := ⟨word.span.start, close.span.stop⟩
    return (.loop ⟨r₅.nextId, span⟩ condition body, ⟨r₅.bump, by rw [size_bump]; omega⟩)
  | .keyword .kwLet =>
    let (word, ⟨r₁, h₁⟩) ← r.expect (.keyword .kwLet)
    let (first, ⟨r₂, h₂⟩) ← definition r₁
    let (others, ⟨r₃, h₃⟩) ← moreDefinitions r₂
    let (_, ⟨r₄, h₄⟩) ← r₃.expect (.keyword .kwIn)
    let (body, ⟨r₅, h₅⟩) ← statements r₄
    let (close, ⟨r₆, h₆⟩) ← r₅.expect (.keyword .kwEnd)
    let span : Span := ⟨word.span.start, close.span.stop⟩
    return (.block ⟨r₆.nextId, span⟩ (first :: others) body,
      ⟨r₆.bump, by rw [size_bump]; omega⟩)
  | _ => r.simpleStatement
termination_by 2 * r.size

def elseBranch (r : Reader) : ParsedTail (List Statement) r := do
  match ← r.accept? (only (.keyword .kwElse)) with
  | none => return ([], ⟨r, Nat.le_refl _⟩)
  | some (_, _, ⟨r₁, h₁⟩) =>
    let (negative, ⟨r₂, h₂⟩) ← statements r₁
    return (negative, ⟨r₂, by omega⟩)
termination_by 2 * r.size

def definition (r : Reader) : Parsed Definition r := do
  let token ← r.peek
  match token.kind with
  | .keyword .kwFun =>
    let (word, ⟨r₁, h₁⟩) ← r.expect (.keyword .kwFun)
    let (name, ⟨r₂, h₂⟩) ← r₁.identifier
    let (_, ⟨r₃, h₃⟩) ← r₂.expect .openParen
    let (parameters, ⟨r₄, h₄⟩) ← r₃.parameters
    let (close, ⟨r₅, h₅⟩) ← r₄.expect .closeParen
    let (body, ⟨r₆, h₆⟩) ← functionBody r₅
    let stop := ((body.getLast?).map fun statement => statement.node.span.stop).getD close.span.stop
    let head : FunctionHead := ⟨⟨r₆.nextId, ⟨word.span.start, stop⟩⟩, name, parameters⟩
    return (.func head body, ⟨r₆.bump, by rw [size_bump]; omega⟩)
  | .keyword .kwVar =>
    let (head, shorter) ← r.variableDefinition
    return (.var head, shorter)
  | _ => throw (unexpected .definition token)
termination_by 2 * r.size

def functionBody (r : Reader) : ParsedTail (List Statement) r := do
  match ← r.accept? (only .equals) with
  | none => return ([], ⟨r, Nat.le_refl _⟩)
  | some (_, _, ⟨r₁, h₁⟩) =>
    let (body, ⟨r₂, h₂⟩) ← statements r₁
    return (body, ⟨r₂, by omega⟩)
termination_by 2 * r.size

/-- Reads further definitions up to the word `in`. -/
def moreDefinitions (r : Reader) : ParsedTail (List Definition) r := do
  let token ← r.peek
  if token.kind = .keyword .kwIn then return ([], ⟨r, Nat.le_refl _⟩)
  else
    let (first, ⟨r₁, h₁⟩) ← definition r
    let (others, ⟨r₂, h₂⟩) ← moreDefinitions r₁
    return (first :: others, ⟨r₂, by omega⟩)
termination_by 2 * r.size + 1

end

def definitions (r : Reader) : Except CompileError (List Definition × Reader) := do
  let token ← r.peek
  if token.kind = .endOfFile then return ([], r)
  else
    let (first, ⟨r₁, _⟩) ← r.definition
    let (others, last) ← definitions r₁
    return (first :: others, last)
termination_by r.size

end Reader

def Program.parse (text : List Char) : Except CompileError Program := do
  let (definitions, _) ← (Reader.ofText text).definitions
  return definitions

end NestedFun
