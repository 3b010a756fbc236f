import NestedFun.Text.GraphemeExtend
import NestedFun.Text.Unprinted

namespace NestedFun

/-!
# Quoted characters and texts

How a message shows a single character, and how a dump shows a text: between quotes, with
everything a reader could not see written as an escape.
-/

/-- The fillers of incomplete Hangul syllables, which are letters but show as blanks. -/
def isHangulFiller (c : Char) : Bool :=
  c.toNat = 0x115f || c.toNat = 0x1160 || c.toNat = 0x3164 || c.toNat = 0xffa0

/-- The halfwidth sound marks, which extend graphemes but show as signs of their own. -/
def isHalfwidthMark (c : Char) : Bool :=
  c.toNat = 0xff9e || c.toNat = 0xff9f

/-- Whether a character shows as nothing, as a blank, or only as part of the one before it. -/
def isHidden (c : Char) : Bool :=
  (extendsGrapheme c && !isHalfwidthMark c) || isHangulFiller c || isUnprinted c

/-- The escape `\u{hex}` of a character, in lower-case hexadecimal. -/
def codeEscape (c : Char) : List Char :=
  "\\u\x7b".toList ++ Nat.toDigits 16 c.toNat ++ ['\x7d']

/-- A character as it stands between quotes of the kind `quote`; the other kind is not escaped. -/
def escaped (quote c : Char) : List Char :=
  if c = '\x00' then ['\\', '0']
  else if c = '\t' then ['\\', 't']
  else if c = '\r' then ['\\', 'r']
  else if c = '\n' then ['\\', 'n']
  else if c = '\\' || c = quote then ['\\', c]
  else if isHidden c then codeEscape c
  else [c]

def quotedChar (c : Char) : String :=
  String.ofList ('\'' :: escaped '\'' c ++ ['\''])

def quotedText (s : String) : String :=
  String.ofList ('"' :: s.toList.flatMap (escaped '"') ++ ['"'])

end NestedFun
