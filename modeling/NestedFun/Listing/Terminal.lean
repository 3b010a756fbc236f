namespace NestedFun

/-!
# Text for terminals

Coloured pieces of text, for any way to select colours and to take out what is not shown. The
standard way is to select them by escape sequences; taken out are these and control characters, line
feeds excepted.
-/

inductive Colour where
  | red | yellow | blue | magenta | cyan | white | brightBlack | brightRed | brightWhite
deriving DecidableEq

def Colour.code : Colour → Nat
  | red => 31
  | yellow => 33
  | blue => 34
  | magenta => 35
  | cyan => 36
  | white => 37
  | brightBlack => 90
  | brightRed => 91
  | brightWhite => 97

/-- The escape sequence that selects a colour or, with the number 0, the usual one. -/
def colourSequence (n : Nat) : String := "\x1b[" ++ toString n ++ "m"

/-- How a text is written in a colour, if colours are wanted, and how everything that is not shown
is taken out of a text. -/
structure Terminal where
  paint (coloured : Bool) (colour : Colour) (text : String) : String
  strip (text : String) : String

/-- A piece of text in one colour, or in the usual one. -/
structure Piece where
  colour : Option Colour
  text : String

namespace Piece

def plain (text : String) : Piece := ⟨none, text⟩

def paint (colour : Colour) (text : String) : Piece := ⟨some colour, text⟩

def render (terminal : Terminal) (coloured : Bool) (piece : Piece) : String :=
  match piece.colour with
  | some colour => terminal.paint coloured colour piece.text
  | none => piece.text

end Piece

/-- What a terminal is in the middle of: nothing, or a sequence that started with an escape
character. Control sequences end at a letter or sign and system commands at a bell. A device string
has a head, which ends at a letter or sign, and then data, which end at the byte `9c`. Other strings,
and device strings with a malformed head, end only where a sequence is broken off or a new one
starts. -/
inductive TerminalState where
  | ground
  | escape
  | intermediate
  | control
  | systemCommand
  | deviceEntry
  | deviceParameters
  | deviceIntermediate
  | deviceData
  | hiddenString
deriving DecidableEq

/-- The bytes behind the first byte `9c` of a character's UTF-8 form, if it has that byte. -/
def behindTerminator? (c : Char) : Option (List UInt8) :=
  match (String.utf8EncodeChar c).dropWhile (· ≠ 0x9c) with
  | [] => none
  | _ :: stray => some stray

/-- What is shown for a byte that is not part of a character: nothing if it could be a control, and
otherwise the replacement character. -/
def strayChar? (b : UInt8) : Option Char :=
  if b < 0xa0 then none else some '\ufffd'

namespace TerminalState

/-- The state after a character that means the same inside every sequence. -/
def interrupt (state : TerminalState) (c : Char) : TerminalState :=
  if c = '\x18' || c = '\x1a' then ground
  else if c = '\x1b' then escape
  else state

def advance (state : TerminalState) (c : Char) : TerminalState :=
  match state with
  | ground => if c = '\x1b' then escape else ground
  | escape =>
    if ' ' ≤ c && c ≤ '/' then intermediate
    else if c = '[' then control
    else if c = ']' then systemCommand
    else if c = 'P' then deviceEntry
    else if c = 'X' || c = '^' || c = '_' then hiddenString
    else if '0' ≤ c && c ≤ '~' then ground
    else interrupt escape c
  | intermediate => if '0' ≤ c && c ≤ '~' then ground else interrupt intermediate c
  | control => if '@' ≤ c && c ≤ '~' then ground else interrupt control c
  | systemCommand => if c = '\x07' then ground else interrupt systemCommand c
  | deviceEntry =>
    if ' ' ≤ c && c ≤ '/' then deviceIntermediate
    else if '0' ≤ c && c ≤ '?' then deviceParameters
    else if '@' ≤ c && c ≤ '~' then deviceData
    else interrupt deviceEntry c
  | deviceParameters =>
    if ' ' ≤ c && c ≤ '/' then deviceIntermediate
    else if '<' ≤ c && c ≤ '?' then hiddenString
    else if '@' ≤ c && c ≤ '~' then deviceData
    else interrupt deviceParameters c
  | deviceIntermediate =>
    if '0' ≤ c && c ≤ '?' then hiddenString
    else if '@' ≤ c && c ≤ '~' then deviceData
    else interrupt deviceIntermediate c
  | deviceData => if (behindTerminator? c).isSome then ground else interrupt deviceData c
  | hiddenString => interrupt hiddenString c

/-- What is shown for a character. Line feeds take effect in the middle of a sequence, but not of a
string. A character that ends the data of a device string is cut in two, and what is left of it is
no character any more. -/
def shown (state : TerminalState) (c : Char) : List Char :=
  match state with
  | ground => if c = '\n' || (' ' ≤ c && !('\x80' ≤ c && c ≤ '\x9f')) then [c] else []
  | escape | intermediate | control => if c = '\n' then [c] else []
  | deviceData => ((behindTerminator? c).getD []).filterMap strayChar?
  | systemCommand | deviceEntry | deviceParameters | deviceIntermediate | hiddenString => []

end TerminalState

def shownChars (state : TerminalState) : List Char → List Char
  | [] => []
  | c :: cs => state.shown c ++ shownChars (state.advance c) cs

namespace Terminal

/-- Nothing is said about the colour of no text. -/
def standard : Terminal where
  paint coloured colour text :=
    if coloured && text ≠ "" then colourSequence colour.code ++ text ++ colourSequence 0 else text
  strip text := String.ofList (shownChars .ground text.toList)

end Terminal

end NestedFun
