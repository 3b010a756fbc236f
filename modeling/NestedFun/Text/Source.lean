import NestedFun.Text.Span

namespace NestedFun

/-!
# Source texts

A program text with the place it came from, its rows and columns, and the way a message points at
a span of it. Rows and columns count from 1; a column counts bytes.
-/

inductive Origin where
  | memory
  | file (path : String)
deriving DecidableEq

def Origin.display : Origin → String
  | .memory => "<memory>"
  | .file path => path

structure Source where
  contents : String
  origin : Origin

/-- The declarations of the functions that the machine itself provides. -/
def systemDeclarations : String :=
  "# System functions provided natively by the abstract machine.\n" ++
  "fun exit(code)\n" ++
  "fun getint()\n" ++
  "fun putint(n)\n" ++
  "fun getchr()\n" ++
  "fun putchr(c)\n" ++
  "fun putstr(s)\n" ++
  "fun new(size)\n" ++
  "fun del(ptr)\n"

/-- The characters of the first `n` bytes and the characters after them. There are none if the text
is shorter or byte `n` lies inside a character. -/
def splitAtByte? : Nat → List Char → Option (List Char × List Char)
  | 0, cs => some ([], cs)
  | _ + 1, [] => none
  | n + 1, c :: cs =>
    if c.utf8Size ≤ n + 1 then
      (splitAtByte? (n + 1 - c.utf8Size) cs).map fun parts => (c :: parts.1, parts.2)
    else none

def lastLine (cs : List Char) : List Char :=
  (cs.reverse.takeWhile (· ≠ '\n')).reverse

def firstLine (cs : List Char) : List Char :=
  cs.takeWhile (· ≠ '\n')

namespace Source

/-- The text with the declarations of the system functions behind it, on lines of their own, so that
no position of the text itself changes. -/
def withSystemDeclarations (source : Source) : Source :=
  let gap := if source.contents.toList.getLast? = some '\n' then "" else "\n"
  { source with contents := source.contents ++ gap ++ systemDeclarations }

def size (source : Source) : Nat :=
  source.contents.utf8ByteSize

/-- The text before a position and the text from it on; positions past the end count as the end. -/
def split? (source : Source) (position : Nat) : Option (List Char × List Char) :=
  splitAtByte? (min position source.size) source.contents.toList

def row? (source : Source) (position : Nat) : Option Nat :=
  (source.split? position).map fun parts => parts.1.count '\n' + 1

def column? (source : Source) (position : Nat) : Option Nat :=
  (source.split? position).map fun parts => byteLength (lastLine parts.1) + 1

def slice? (source : Source) (span : Span) : Option String := do
  if span.stop < span.start then none else
  let (_, rest) ← splitAtByte? span.start source.contents.toList
  let (inside, _) ← splitAtByte? (span.stop - span.start) rest
  return String.ofList inside

/-- The line on which a span starts and, below it, a caret for every byte of the span on that line,
but at least one. -/
def highlight? (source : Source) (span : Span) : Option String := do
  let (before, after) ← source.split? span.start
  let start := min span.start source.size
  let lineStop := start + byteLength (firstLine after)
  let stop := max (start + 1) (min span.stop lineStop)
  let indent := byteLength (lastLine before)
  return String.ofList (lastLine before ++ firstLine after ++ ['\n']
    ++ List.replicate indent ' ' ++ List.replicate (stop - start) '^')

/-- A message with the place it is about: origin, row, column and the highlighted line. -/
def annotate? (source : Source) (span : Span) (message : String) : Option String := do
  let row ← source.row? span.start
  let column ← source.column? span.start
  let highlight ← source.highlight? span
  return s!"{message} ({source.origin.display}:{row}:{column})\n{highlight}"

end Source

end NestedFun
