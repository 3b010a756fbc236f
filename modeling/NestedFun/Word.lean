import NestedFun.Text.Basic

namespace NestedFun

/-!
# Machine words

Words are signed numbers of 32 bits in two's complement; arithmetic on them wraps around. Sizes and
offsets that the compiler computes are integers, which have to be checked before they become words.
-/

abbrev Word := Int32

def wordSize : Nat := 4

/-- The least number too large for a word: 2 ^ 31. -/
def wordBound : Nat := 2147483648

def fitsWord (n : Int) : Bool :=
  -wordBound ≤ n && n < wordBound

def checked? (n : Int) : Option Int :=
  if fitsWord n then some n else none

namespace Word

/-- The word of a number that fits, and otherwise of its remainder. -/
def ofInt (n : Int) : Word := Int32.ofInt n

def ofChar (c : Char) : Word := Int32.ofInt c.toNat

def ofBool (b : Bool) : Word := if b then 1 else 0

def numeral (w : Word) : String := toString w.toInt

/-- Several words in brackets, as messages show them. -/
def listing (ws : List Word) : String :=
  "[" ++ ", ".intercalate (ws.map numeral) ++ "]"

/-- The word that a decimal numeral with an optional sign spells. -/
def ofNumeral? (cs : List Char) : Option Word :=
  let (negative, digits) :=
    match cs with
    | '-' :: digits => (true, digits)
    | '+' :: digits => (false, digits)
    | _ => (false, cs)
  (decimalValue? digits).bind fun value =>
    (checked? (if negative then -value else value)).map ofInt

/-- The address of the word that lies `n` words behind an address. -/
def after (address n : Word) : Word := address + n * 4

/-- The first multiple of the word size from an address on. -/
def alignUp (address : Word) : Word := (address + 3) &&& ~~~3

end Word

end NestedFun
