import NestedFun.Tree.Basic
import NestedFun.Token.Constant
import NestedFun.Token.Basic

namespace NestedFun

/-!
# The grammar

The phrases of the language, the rules that say what they consist of, and the trees that they stand
for. A derivation of symbols is made of tokens and of rules that are applied to phrases; its value
is the tree, in which nodes have no numbers yet.

    definitions    → { definition }
    definition     → "fun" NAME "(" [ NAME { "," NAME } ] ")" [ "=" statements ]
                   | "var" NAME "=" initializer { "," initializer }
    initializer    → INTEGER [ "*" constant ] | CHARACTER | STRING
    constant       → INTEGER | CHARACTER | STRING
    statements     → statement { "," statement }
    statement      → expression [ "=" expression ]
                   | "if" expression "then" statements [ "else" statements ] "end"
                   | "while" expression "do" statements "end"
                   | "let" definition { definition } "in" statements "end"
    expression     → conjunction { "||" conjunction }
    conjunction    → relation { "&&" relation }
    relation       → additive [ ( "==" | "!=" | "<" | ">" | "<=" | ">=" ) additive ]
    additive       → multiplicative { ( "+" | "-" ) multiplicative }
    multiplicative → prefix { ( "*" | "/" | "%" ) prefix }
    prefix         → ( "!" | "+" | "-" | "^" ) prefix | postfix
    postfix        → primary { "^" }
    primary        → constant | NAME [ "(" [ expression { "," expression } ] ")" ]
                   | "(" expression ")"

Every part in braces or brackets is a phrase of its own.
-/

/-! ## Phrases and symbols -/

/-- The phrases made of two operands or more with operators between them. -/
inductive Operation where
  | expression | conjunction | relation | additive | multiplicative
deriving DecidableEq

inductive Phrase where
  | definitions | definition
  | parameters | moreParameters | functionBody
  | initializer | moreInitializers | repeated | constant
  | statements | moreStatements | statement | assigned | otherwise
  | operation (operation : Operation) | operand (operation : Operation)
  | moreOperands (operation : Operation) | sign (operation : Operation)
  | prefixed | prefixSign | postfixed | carets | primary
  | called | arguments | moreArguments
deriving DecidableEq

inductive Symbol where
  | token (kind : TokenKind)
  | phrase (phrase : Phrase)
deriving DecidableEq

namespace Operation

def signs : Operation → List (TokenKind × BinaryKind)
  | expression => [(.orOr, .or)]
  | conjunction => [(.andAnd, .and)]
  | relation => [(.equalsEquals, .equal), (.bangEquals, .notEqual), (.less, .less),
      (.greater, .greater), (.lessEquals, .lessEqual), (.greaterEquals, .greaterEqual)]
  | additive => [(.plus, .add), (.minus, .subtract)]
  | multiplicative => [(.star, .multiply), (.slash, .divide), (.percent, .modulus)]

/-- The operation that the operands of an operation are; those of the last are no operations. -/
def tighter? : Operation → Option Operation
  | expression => some conjunction
  | conjunction => some relation
  | relation => some additive
  | additive => some multiplicative
  | multiplicative => none

end Operation

def prefixSigns : List (TokenKind × UnaryKind) :=
  [(.bang, .not), (.plus, .identity), (.minus, .negate), (.caret, .addressOf)]

def textKinds : List (TokenKind × LiteralKind) :=
  [(.character, .character), (.string, .string)]

def constantKinds : List (TokenKind × LiteralKind) :=
  (.integer, .integer) :: textKinds

/-! ## Values of phrases -/

/-- What a phrase stands for. Signs keep their token, which has their place. -/
@[reducible] def Phrase.Tree : Phrase → Type
  | .definitions => List Definition
  | .definition => Definition
  | .parameters | .moreParameters => List Parameter
  | .functionBody | .statements | .moreStatements | .otherwise => List Statement
  | .initializer => Initializer
  | .moreInitializers => List Initializer
  | .repeated => Option Literal
  | .constant => Literal
  | .statement => Statement
  | .assigned => Option Expression
  | .operation _ | .operand _ | .prefixed | .postfixed | .primary => Expression
  | .moreOperands _ => List ((Token × BinaryKind) × Expression)
  | .sign _ => Token × BinaryKind
  | .prefixSign => Token × UnaryKind
  | .carets => List Token
  | .called => Option (List Expression × Token)
  | .arguments | .moreArguments => List Expression

@[reducible] def Symbol.Value : Symbol → Type
  | .token _ => Token
  | .phrase p => p.Tree

@[reducible] def Values : List Symbol → Type
  | [] => Unit
  | s :: form => s.Value × Values form

def Span.node (span : Span) : Node := ⟨0, span⟩

def Token.identifier (token : Token) : Identifier := ⟨token.span.node, String.ofList token.lexeme⟩

def Token.parameter (token : Token) : Parameter := ⟨token.span.node, token.identifier⟩

def Token.literal (token : Token) : LiteralKind → Literal
  | .integer => ⟨token.span.node, .integer, String.ofList token.lexeme⟩
  | kind => ⟨token.span.node, kind, String.ofList (constantChars token.lexeme)⟩

def Expression.join (left : Expression) (sign : Token × BinaryKind) (right : Expression) :
    Expression :=
  .binary (Span.node ⟨left.node.span.start, right.node.span.stop⟩) ⟨sign.1.span.node, sign.2⟩ left
    right

/-- The tree of operands with operators between them, which associate to the left. -/
def Expression.joinAll (first : Expression) (others : List ((Token × BinaryKind) × Expression)) :
    Expression :=
  others.foldl (fun left other => left.join other.1 other.2) first

def Expression.negated (sign : Token × UnaryKind) (operand : Expression) : Expression :=
  .unary (Span.node ⟨sign.1.span.start, operand.node.span.stop⟩) ⟨sign.1.span.node, sign.2⟩ operand

def Expression.dereferenced (operand : Expression) (caret : Token) : Expression :=
  .unary (Span.node ⟨operand.node.span.start, caret.span.stop⟩) ⟨caret.span.node, .dereference⟩
    operand

/-! ## Rules -/

inductive Rule : Phrase → Type where
  | noDefinition : Rule .definitions
  | someDefinitions : Rule .definitions
  | functionDefinition : Rule .definition
  | variableDefinition : Rule .definition
  | noParameter : Rule .parameters
  | someParameters : Rule .parameters
  | lastParameter : Rule .moreParameters
  | nextParameter : Rule .moreParameters
  | noBody : Rule .functionBody
  | someBody : Rule .functionBody
  | number : Rule .initializer
  | text (kind : TokenKind) (literal : LiteralKind) (h : (kind, literal) ∈ textKinds) :
      Rule .initializer
  | lastInitializer : Rule .moreInitializers
  | nextInitializer : Rule .moreInitializers
  | once : Rule .repeated
  | times : Rule .repeated
  | constant (kind : TokenKind) (literal : LiteralKind) (h : (kind, literal) ∈ constantKinds) :
      Rule .constant
  | statements : Rule .statements
  | lastStatement : Rule .moreStatements
  | nextStatement : Rule .moreStatements
  | simple : Rule .statement
  | branch : Rule .statement
  | loop : Rule .statement
  | block : Rule .statement
  | evaluated : Rule .assigned
  | assigned : Rule .assigned
  | noElse : Rule .otherwise
  | otherwise : Rule .otherwise
  | operation (operation : Operation) : Rule (.operation operation)
  | tighter (operation inner : Operation) (h : operation.tighter? = some inner) :
      Rule (.operand operation)
  | tightest : Rule (.operand .multiplicative)
  | lastOperand (operation : Operation) : Rule (.moreOperands operation)
  /-- Relations do not chain. -/
  | related : Rule (.moreOperands .relation)
  | nextOperand (operation : Operation) (h : operation ≠ .relation) : Rule (.moreOperands operation)
  | binarySign (operation : Operation) (kind : TokenKind) (operator : BinaryKind)
      (h : (kind, operator) ∈ operation.signs) : Rule (.sign operation)
  | signed : Rule .prefixed
  | unsigned : Rule .prefixed
  | prefixSign (kind : TokenKind) (operator : UnaryKind) (h : (kind, operator) ∈ prefixSigns) :
      Rule .prefixSign
  | postfixed : Rule .postfixed
  | lastCaret : Rule .carets
  | nextCaret : Rule .carets
  | literal : Rule .primary
  | named : Rule .primary
  | grouped : Rule .primary
  | notCalled : Rule .called
  | called : Rule .called
  | noArgument : Rule .arguments
  | someArguments : Rule .arguments
  | lastArgument : Rule .moreArguments
  | nextArgument : Rule .moreArguments

namespace Rule

/-- What a phrase consists of by a rule. -/
@[reducible] def form : {p : Phrase} → Rule p → List Symbol
  | _, noDefinition => []
  | _, someDefinitions => [.phrase .definition, .phrase .definitions]
  | _, functionDefinition => [.token (.keyword .kwFun), .token .identifier, .token .openParen,
      .phrase .parameters, .token .closeParen, .phrase .functionBody]
  | _, variableDefinition => [.token (.keyword .kwVar), .token .identifier, .token .equals,
      .phrase .initializer, .phrase .moreInitializers]
  | _, noParameter => []
  | _, someParameters => [.token .identifier, .phrase .moreParameters]
  | _, lastParameter => []
  | _, nextParameter => [.token .comma, .token .identifier, .phrase .moreParameters]
  | _, noBody => []
  | _, someBody => [.token .equals, .phrase .statements]
  | _, number => [.token .integer, .phrase .repeated]
  | _, text kind _ _ => [.token kind]
  | _, lastInitializer => []
  | _, nextInitializer => [.token .comma, .phrase .initializer, .phrase .moreInitializers]
  | _, once => []
  | _, times => [.token .star, .phrase .constant]
  | _, constant kind _ _ => [.token kind]
  | _, statements => [.phrase .statement, .phrase .moreStatements]
  | _, lastStatement => []
  | _, nextStatement => [.token .comma, .phrase .statement, .phrase .moreStatements]
  | _, simple => [.phrase (.operation .expression), .phrase .assigned]
  | _, branch => [.token (.keyword .kwIf), .phrase (.operation .expression),
      .token (.keyword .kwThen), .phrase .statements, .phrase .otherwise, .token (.keyword .kwEnd)]
  | _, loop => [.token (.keyword .kwWhile), .phrase (.operation .expression),
      .token (.keyword .kwDo), .phrase .statements, .token (.keyword .kwEnd)]
  | _, block => [.token (.keyword .kwLet), .phrase .definition, .phrase .definitions,
      .token (.keyword .kwIn), .phrase .statements, .token (.keyword .kwEnd)]
  | _, evaluated => []
  | _, assigned => [.token .equals, .phrase (.operation .expression)]
  | _, noElse => []
  | _, otherwise => [.token (.keyword .kwElse), .phrase .statements]
  | _, operation o => [.phrase (.operand o), .phrase (.moreOperands o)]
  | _, tighter _ inner _ => [.phrase (.operation inner)]
  | _, tightest => [.phrase .prefixed]
  | _, lastOperand _ => []
  | _, related => [.phrase (.sign .relation), .phrase (.operand .relation)]
  | _, nextOperand o _ => [.phrase (.sign o), .phrase (.operand o), .phrase (.moreOperands o)]
  | _, binarySign _ kind _ _ => [.token kind]
  | _, signed => [.phrase .prefixSign, .phrase .prefixed]
  | _, unsigned => [.phrase .postfixed]
  | _, prefixSign kind _ _ => [.token kind]
  | _, postfixed => [.phrase .primary, .phrase .carets]
  | _, lastCaret => []
  | _, nextCaret => [.token .caret, .phrase .carets]
  | _, literal => [.phrase .constant]
  | _, named => [.token .identifier, .phrase .called]
  | _, grouped => [.token .openParen, .phrase (.operation .expression), .token .closeParen]
  | _, notCalled => []
  | _, called => [.token .openParen, .phrase .arguments, .token .closeParen]
  | _, noArgument => []
  | _, someArguments => [.phrase (.operation .expression), .phrase .moreArguments]
  | _, lastArgument => []
  | _, nextArgument => [.token .comma, .phrase (.operation .expression), .phrase .moreArguments]

/-- The tree of a phrase from the values of what it consists of. -/
@[simp]
def build : {p : Phrase} → (rule : Rule p) → Values rule.form → p.Tree
  | _, noDefinition => fun _ => ([] : List Definition)
  | _, someDefinitions => fun (first, others, _) => first :: others
  | _, functionDefinition => fun (word, name, _, parameters, close, body, _) =>
    let stop := ((body.getLast?).map fun statement => statement.node.span.stop).getD close.span.stop
    .func ⟨Span.node ⟨word.span.start, stop⟩, name.identifier, parameters⟩ body
  | _, variableDefinition => fun (word, name, _, first, others, _) =>
    .var ⟨Span.node ⟨word.span.start, (others.getLastD first).span.stop⟩, name.identifier,
      first :: others⟩
  | _, noParameter => fun _ => ([] : List Parameter)
  | _, someParameters => fun (name, others, _) => name.parameter :: others
  | _, lastParameter => fun _ => ([] : List Parameter)
  | _, nextParameter => fun (_, name, others, _) => name.parameter :: others
  | _, noBody => fun _ => ([] : List Statement)
  | _, someBody => fun (_, body, _) => body
  | _, number => fun (token, value, _) =>
    let first := token.literal .integer
    match value with
    | none => ⟨token.span.node, none, first⟩
    | some value => ⟨Span.node ⟨token.span.start, value.span.stop⟩, some first, value⟩
  | _, text _ kind _ => fun (token, _) => ⟨token.span.node, none, token.literal kind⟩
  | _, lastInitializer => fun _ => ([] : List Initializer)
  | _, nextInitializer => fun (_, first, others, _) => first :: others
  | _, once => fun _ => (none : Option Literal)
  | _, times => fun (_, value, _) => some value
  | _, constant _ kind _ => fun (token, _) => token.literal kind
  | _, statements => fun (first, others, _) => first :: others
  | _, lastStatement => fun _ => ([] : List Statement)
  | _, nextStatement => fun (_, first, others, _) => first :: others
  | _, simple => fun (first, source, _) =>
    match source with
    | none => .eval first.node.span.node first
    | some source => .assign (Span.node ⟨first.node.span.start, source.node.span.stop⟩) first source
  | _, branch => fun (word, condition, _, positive, negative, close, _) =>
    .branch (Span.node ⟨word.span.start, close.span.stop⟩) condition positive negative
  | _, loop => fun (word, condition, _, body, close, _) =>
    .loop (Span.node ⟨word.span.start, close.span.stop⟩) condition body
  | _, block => fun (word, first, others, _, body, close, _) =>
    .block (Span.node ⟨word.span.start, close.span.stop⟩) (first :: others) body
  | _, evaluated => fun _ => (none : Option Expression)
  | _, assigned => fun (_, source, _) => some source
  | _, noElse => fun _ => ([] : List Statement)
  | _, otherwise => fun (_, negative, _) => negative
  | _, operation _ => fun (first, others, _) => Expression.joinAll first others
  | _, tighter _ _ _ => fun (inner, _) => inner
  | _, tightest => fun (inner, _) => inner
  | _, lastOperand _ => fun _ => ([] : List ((Token × BinaryKind) × Expression))
  | _, related => fun (sign, right, _) => [(sign, right)]
  | _, nextOperand _ _ => fun (sign, right, others, _) => (sign, right) :: others
  | _, binarySign _ _ operator _ => fun (token, _) => (token, operator)
  | _, signed => fun (sign, operand, _) => operand.negated sign
  | _, unsigned => fun (operand, _) => operand
  | _, prefixSign _ operator _ => fun (token, _) => (token, operator)
  | _, postfixed => fun (operand, carets, _) => carets.foldl Expression.dereferenced operand
  | _, lastCaret => fun _ => ([] : List Token)
  | _, nextCaret => fun (caret, others, _) => caret :: others
  | _, literal => fun (value, _) => .literal value.span.node value
  | _, named => fun (name, call, _) =>
    match call with
    | none => .name name.span.node name.identifier
    | some (arguments, close) =>
      .call (Span.node ⟨name.span.start, close.span.stop⟩) name.identifier arguments
  | _, grouped => fun (_, inner, _) => inner
  | _, notCalled => fun _ => (none : Option (List Expression × Token))
  | _, called => fun (_, arguments, close, _) => some (arguments, close)
  | _, noArgument => fun _ => ([] : List Expression)
  | _, someArguments => fun (first, others, _) => first :: others
  | _, lastArgument => fun _ => ([] : List Expression)
  | _, nextArgument => fun (_, first, others, _) => first :: others

end Rule

/-! ## Derivations -/

/-- What symbols are derived to: every token symbol to a token of its kind, and every phrase by one of
its rules. -/
inductive Derivation : List Symbol → Type where
  | nil : Derivation []
  | token {kind : TokenKind} {form : List Symbol} (token : Token) (h : token.kind = kind)
      (rest : Derivation form) : Derivation (.token kind :: form)
  | phrase {p : Phrase} {form : List Symbol} (rule : Rule p) (parts : Derivation rule.form)
      (rest : Derivation form) : Derivation (.phrase p :: form)

namespace Derivation

def tokens : {form : List Symbol} → Derivation form → List Token
  | _, nil => []
  | _, token t _ rest => t :: rest.tokens
  | _, phrase _ parts rest => parts.tokens ++ rest.tokens

def values : {form : List Symbol} → Derivation form → Values form
  | _, nil => ()
  | _, token t _ rest => (t, rest.values)
  | _, phrase rule parts rest => (rule.build parts.values, rest.values)

end Derivation

end NestedFun
