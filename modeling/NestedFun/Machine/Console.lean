import NestedFun.Text.Basic
import NestedFun.Word

namespace NestedFun

/-!
# Console

The input that a program reads and the output that it writes, both as bytes.
-/

inductive ConsoleError where
  | endOfInput
  | notAnInteger (line : String)
  | invalidText
  | outputFull
deriving DecidableEq

def ConsoleError.message : ConsoleError → String
  | endOfInput => "unexpected end of input"
  | notAnInteger line => s!"'{line}' is not an integer"
  | invalidText => "stream did not contain valid UTF-8"
  | outputFull => "failed to write whole buffer"

/-- The first line of an input, with its line feed if it has one, and the rest. -/
def splitLine : List UInt8 → List UInt8 × List UInt8
  | [] => ([], [])
  | b :: bytes =>
    if b = 10 then ([b], bytes)
    else
      let (line, rest) := splitLine bytes
      (b :: line, rest)

/-- The number that a line spells between blanks. -/
def readInteger (line : List UInt8) : Except ConsoleError Word :=
  if line.isEmpty then .error .endOfInput
  else
    match String.fromUTF8? ⟨line.toArray⟩ with
    | none => .error .invalidText
    | some text =>
      let text := trimmed text.toList
      match Word.ofNumeral? text with
      | some value => .ok value
      | none => .error (.notAnInteger (String.ofList text))

/-- Output that has been written; if there is a limit, `room` is what can still be written. -/
structure Output where
  bytes : ByteArray := .empty
  room : Option Nat := none

namespace Output

def put? (output : Output) (b : UInt8) : Option Output :=
  match output.room with
  | none => some { output with bytes := output.bytes.push b }
  | some 0 => none
  | some (n + 1) => some ⟨output.bytes.push b, some n⟩

/-- Writes bytes as long as there is room; says whether all were written. -/
def write (output : Output) : List UInt8 → Output × Bool
  | [] => (output, true)
  | b :: bytes =>
    match output.put? b with
    | some output => output.write bytes
    | none => (output, false)

end Output

end NestedFun
