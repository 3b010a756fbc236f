namespace NestedFun

/-!
# Digits, blanks and columns

What source texts, arguments, input and listings have in common: numbers that digits spell, blank
characters, and texts brought to a width.
-/

/-! ## Decimal numerals -/

def decimalValue (digits : List Char) : Nat :=
  digits.foldl (fun value c => 10 * value + (c.toNat - '0'.toNat)) 0

/-- The number that a text of at least one digit, and nothing but digits, spells. -/
def decimalValue? (cs : List Char) : Option Nat :=
  if cs.isEmpty || !cs.all Char.isDigit then none else some (decimalValue cs)

/-! ## Blank characters

Two classes: the blanks that separate tokens, which are ASCII, and the blanks that input lines are
trimmed of, which are all of Unicode's `White_Space`.
-/

/-- The blanks between tokens: space, tab, line feed, form feed and carriage return. -/
def isTokenBlank (c : Char) : Bool :=
  c = ' ' || c = '\t' || c = '\n' || c = '\x0c' || c = '\r'

/-- The Unicode property `White_Space`. -/
def isWhiteSpace (c : Char) : Bool :=
  (0x9 ≤ c.toNat && c.toNat ≤ 0xd) || c.toNat = 0x20 || c.toNat = 0x85 || c.toNat = 0xa0
    || c.toNat = 0x1680 || (0x2000 ≤ c.toNat && c.toNat ≤ 0x200a) || c.toNat = 0x2028
    || c.toNat = 0x2029 || c.toNat = 0x202f || c.toNat = 0x205f || c.toNat = 0x3000

def trimmed (cs : List Char) : List Char :=
  ((cs.dropWhile isWhiteSpace).reverse.dropWhile isWhiteSpace).reverse

/-! ## Columns

Texts brought to a width with blanks; one that is wide enough already stays as it is.
-/

def padLeft (width : Nat) (s : String) : String :=
  String.ofList (List.replicate (width - s.length) ' ') ++ s

def padRight (width : Nat) (s : String) : String :=
  s ++ String.ofList (List.replicate (width - s.length) ' ')

end NestedFun
