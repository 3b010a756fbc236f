import NestedFun.Diagnostic
import NestedFun.Text.Basic
import NestedFun.Token.Lexeme

namespace NestedFun

/-!
# Lexing

A text is cut into lexemes from left to right. Blanks and comments stand between them; a comment
runs from a hash sign to the end of its line. Reading goes on behind a lexeme that is an error, so
every text has one sequence of tokens and errors, which ends with the end of the file.
-/

/-- The blanks and comments at the start of a text. Inside a comment only a line feed ends it. -/
def skipped : Bool → List Char → List Char
  | _, [] => []
  | true, c :: cs => c :: skipped (c ≠ '\n') cs
  | false, c :: cs =>
    if isTokenBlank c then c :: skipped false cs
    else if c = '#' then c :: skipped true cs
    else []

def unskipped : Bool → List Char → List Char
  | _, [] => []
  | true, c :: cs => unskipped (c ≠ '\n') cs
  | false, c :: cs =>
    if isTokenBlank c then unskipped false cs
    else if c = '#' then unskipped true cs
    else c :: cs

theorem unskipped_length_le (comment : Bool) (cs : List Char) :
    (unskipped comment cs).length ≤ cs.length := by
  induction cs generalizing comment with
  | nil => cases comment <;> simp [unskipped]
  | cons c cs ih =>
      cases comment
      · simp only [unskipped]
        split
        · exact Nat.le_succ_of_le (ih false)
        · split
          · exact Nat.le_succ_of_le (ih true)
          · simp
      · exact Nat.le_succ_of_le (ih _)

def endToken (position : Nat) : Token :=
  ⟨.endOfFile, ⟨position, position⟩, []⟩

/-- A place in a text: how many bytes come before it and what follows. -/
structure Cursor where
  position : Nat
  rest : List Char

namespace Cursor

def start (cs : List Char) : Cursor := ⟨0, cs⟩

def next (cursor : Cursor) : Except CompileError Token × Cursor :=
  let first := cursor.position + byteLength (skipped false cursor.rest)
  match unskipped false cursor.rest with
  | [] => (.ok (endToken first), ⟨first, []⟩)
  | c :: cs =>
    let reading := readLexeme c cs
    let span : Span := ⟨first, first + byteLength reading.text⟩
    match reading.result with
    | .ok kind => (.ok ⟨kind, span, reading.text⟩, ⟨span.stop, reading.rest⟩)
    | .error cause => (.error ⟨span, .lexical cause⟩, ⟨span.stop, reading.rest⟩)

/-- Before the end of the file every step uses up characters. -/
theorem next_rest_lt (cursor : Cursor) (h : unskipped false cursor.rest ≠ []) :
    cursor.next.2.rest.length < cursor.rest.length := by
  have hle := unskipped_length_le false cursor.rest
  unfold next
  match hu : unskipped false cursor.rest with
  | [] => exact absurd hu h
  | c :: cs =>
      rw [hu, List.length_cons] at hle
      have hrest := readLexeme_rest_le c cs
      dsimp only
      split <;> exact Nat.lt_of_lt_of_le (Nat.lt_succ_of_le hrest) hle

end Cursor

/-- A lexer with the token that it has been asked to show ahead of time, if any. -/
structure Lexer where
  cursor : Cursor
  peeked : Option Token

namespace Lexer

def ofText (cs : List Char) : Lexer := ⟨.start cs, none⟩

def next (lexer : Lexer) : Except CompileError Token × Lexer :=
  match lexer.peeked with
  | some token => (.ok token, { lexer with peeked := none })
  | none =>
    let (outcome, cursor) := lexer.cursor.next
    (outcome, ⟨cursor, none⟩)

/-- Shows the next token. A token shown is remembered; an error is not, so the characters that
caused it are used up. -/
def peek (lexer : Lexer) : Except CompileError Token × Lexer :=
  match lexer.peeked with
  | some token => (.ok token, lexer)
  | none =>
    match lexer.cursor.next with
    | (.ok token, cursor) => (.ok token, ⟨cursor, some token⟩)
    | (.error error, cursor) => (.error error, ⟨cursor, none⟩)

end Lexer

inductive Look where
  | peek | next
deriving DecidableEq

namespace Lexer

def look (lexer : Lexer) : Look → Except CompileError Token × Lexer
  | .peek => lexer.peek
  | .next => lexer.next

def answers (lexer : Lexer) : List Look → List (Except CompileError Token)
  | [] => []
  | look :: looks => (lexer.look look).1 :: (lexer.look look).2.answers looks

end Lexer

/-- All that lexing finds in a text: tokens and errors in their order, and where the file ends. -/
structure Scan where
  items : List (Except CompileError Token)
  stop : Nat

def Cursor.scan (cursor : Cursor) : Scan :=
  match _h : unskipped false cursor.rest with
  | [] => ⟨[], cursor.next.2.position⟩
  | _ :: _ =>
    let found := cursor.next
    let scan := found.2.scan
    { scan with items := found.1 :: scan.items }
termination_by cursor.rest.length
decreasing_by
  exact cursor.next_rest_lt (by simp [_h])

def Scan.all (scan : Scan) : List (Except CompileError Token) :=
  scan.items ++ [.ok (endToken scan.stop)]

/-- The tokens that a parser can take, and what stands behind the last of them: the end of the file
or the first error. -/
structure Tokens where
  list : List Token
  ending : Except CompileError Token

namespace Tokens

def ofItems (stop : Nat) : List (Except CompileError Token) → Tokens
  | [] => ⟨[], .ok (endToken stop)⟩
  | .error error :: _ => ⟨[], .error error⟩
  | .ok token :: items =>
    let tokens := ofItems stop items
    { tokens with list := token :: tokens.list }

def ofText (cs : List Char) : Tokens :=
  let scan := (Cursor.start cs).scan
  ofItems scan.stop scan.items

end Tokens

end NestedFun
