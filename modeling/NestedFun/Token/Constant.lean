namespace NestedFun

/-!
# The text of constants

What the text of a character or string constant stands for. Between the quotes a backslash starts
an escape: `\n` is a line feed, two hexadecimal digits give a code, and any other character
stands for itself.
-/

/-- The digits that escapes are written with: decimal digits and the letters `A` to `F`. -/
def isUpperHex (c : Char) : Bool :=
  c.isDigit || ('A' ≤ c && c ≤ 'F')

/-- The value of a hexadecimal digit of either case, and 0 for any other character. -/
def hexValue (c : Char) : Nat :=
  if c.isDigit then c.toNat - '0'.toNat
  else if 'A' ≤ c && c ≤ 'F' then c.toNat - 'A'.toNat + 10
  else if 'a' ≤ c && c ≤ 'f' then c.toNat - 'a'.toNat + 10
  else 0

def hexChar (high low : Char) : Char :=
  Char.ofNat (hexValue high * 16 + hexValue low)

/-- The characters that the inside of a constant stands for. A code cut short counts as ended by
the digit 0, and a backslash at the very end stands for nothing. -/
def unescape : List Char → List Char
  | [] => []
  | '\\' :: [] => []
  | '\\' :: c :: cs =>
    if c = 'n' then '\n' :: unescape cs
    else if isUpperHex c then
      match cs with
      | [] => [hexChar c '0']
      | d :: ds => hexChar c d :: unescape ds
    else c :: unescape cs
  | c :: cs => c :: unescape cs

def constantChars (lexeme : List Char) : List Char :=
  unescape (lexeme.drop 1).dropLast

end NestedFun
