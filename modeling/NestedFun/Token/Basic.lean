import NestedFun.Text.Span

namespace NestedFun

/-!
# Tokens

The words, constants and signs that a program text consists of, and how messages name them.
-/

inductive Keyword where
  | kwFun | kwVar | kwIf | kwThen | kwElse | kwWhile | kwDo | kwLet | kwIn | kwEnd
deriving DecidableEq

namespace Keyword

def all : List Keyword :=
  [kwFun, kwVar, kwIf, kwThen, kwElse, kwWhile, kwDo, kwLet, kwIn, kwEnd]

def text : Keyword → String
  | kwFun => "fun"
  | kwVar => "var"
  | kwIf => "if"
  | kwThen => "then"
  | kwElse => "else"
  | kwWhile => "while"
  | kwDo => "do"
  | kwLet => "let"
  | kwIn => "in"
  | kwEnd => "end"

def ofText? (s : String) : Option Keyword :=
  all.find? fun keyword => keyword.text = s

end Keyword

inductive TokenKind where
  | keyword (word : Keyword)
  | identifier
  | integer | character | string
  | openParen | closeParen | comma
  | bang | caret
  | plus | minus
  | star | slash | percent
  | andAnd | orOr
  | equalsEquals | bangEquals | less | lessEquals | greater | greaterEquals
  | equals
  | endOfFile
deriving DecidableEq

namespace TokenKind

def describe : TokenKind → String
  | keyword word => "'" ++ word.text ++ "'"
  | identifier => "identifier"
  | integer => "integer constant"
  | character => "character constant"
  | string => "string constant"
  | openParen => "'('"
  | closeParen => "')'"
  | comma => "','"
  | bang => "'!'"
  | caret => "'^'"
  | plus => "'+'"
  | minus => "'-'"
  | star => "'*'"
  | slash => "'/'"
  | percent => "'%'"
  | andAnd => "'&&'"
  | orOr => "'||'"
  | equalsEquals => "'=='"
  | bangEquals => "'!='"
  | less => "'<'"
  | lessEquals => "'<='"
  | greater => "'>'"
  | greaterEquals => "'>='"
  | equals => "'='"
  | endOfFile => "end of file"

def isComparison : TokenKind → Bool
  | equalsEquals | bangEquals | less | lessEquals | greater | greaterEquals => true
  | _ => false

def isTermOperator : TokenKind → Bool
  | plus | minus => true
  | _ => false

def isFactorOperator : TokenKind → Bool
  | star | slash | percent => true
  | _ => false

def isPrefixOperator : TokenKind → Bool
  | bang | plus | minus | caret => true
  | _ => false

def isLiteral : TokenKind → Bool
  | integer | character | string => true
  | _ => false

end TokenKind

/-- A token with its place and its text; the end of file has no text. -/
structure Token where
  kind : TokenKind
  span : Span
  lexeme : List Char
deriving DecidableEq

end NestedFun
