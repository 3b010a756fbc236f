import NestedFun.Text.Quoted
import NestedFun.Token.Basic
import NestedFun.Token.Constant

namespace NestedFun

/-!
# Lexemes

The text of one token: which characters at the start of a text belong together, and what kind of
token they are. Reading something splits the text in two, whether it succeeds or not; the first
part is what an error marks, and reading goes on behind it.
-/

inductive LexicalError where
  | unexpectedCharacter (c : Char)
  | emptyCharacter
  | unterminatedCharacter
  | unterminatedString
  | endOfText
  | endOfLine
  | illegalEscape
  | illegalCharacter (c : Char)
deriving DecidableEq

def LexicalError.message : LexicalError → String
  | unexpectedCharacter c => "Unexpected character " ++ quotedChar c ++ "."
  | emptyCharacter => "Empty character constant."
  | unterminatedCharacter => "Unterminated character constant."
  | unterminatedString => "Unterminated string constant."
  | endOfText => "Reached end of file while reading a constant."
  | endOfLine => "Reached end of line while reading a constant."
  | illegalEscape => "Illegal escape sequence."
  | illegalCharacter c => "Illegal character " ++ quotedChar c ++ " in a constant."

/-- The outcome of reading from a text: the part read and the rest. -/
structure Reading (α : Type) where
  result : Except LexicalError α
  text : List Char
  rest : List Char

namespace Reading

variable {α : Type}

def prepend (front : List Char) (reading : Reading α) : Reading α :=
  { reading with text := front ++ reading.text }

@[simp] theorem prepend_rest (front : List Char) (reading : Reading α) :
    (reading.prepend front).rest = reading.rest := rfl

@[simp] theorem prepend_text (front : List Char) (reading : Reading α) :
    (reading.prepend front).text = front ++ reading.text := rfl

end Reading

def readEscape (quote : Char) : List Char → Reading Unit
  | [] => ⟨.error .illegalEscape, [], []⟩
  | c :: cs =>
    if c = 'n' || c = '\\' || c = quote then ⟨.ok (), [c], cs⟩
    else if isUpperHex c then
      match cs with
      | [] => ⟨.error .illegalEscape, [c], []⟩
      | d :: ds =>
        ⟨if isUpperHex d then .ok () else .error .illegalEscape, [c, d], ds⟩
    else ⟨.error .illegalEscape, [c], cs⟩

/-- Reads one character, escaped or not, of a constant between quotes of the kind `quote`. -/
def readElement (quote : Char) : List Char → Reading Unit
  | [] => ⟨.error .endOfText, [], []⟩
  | c :: cs =>
    if c = '\\' then (readEscape quote cs).prepend [c]
    else if c = '\n' then ⟨.error .endOfLine, [c], cs⟩
    else if ' ' ≤ c && c ≤ '~' then ⟨.ok (), [c], cs⟩
    else ⟨.error (.illegalCharacter c), [c], cs⟩

theorem readEscape_rest_le (quote : Char) (cs : List Char) :
    (readEscape quote cs).rest.length ≤ cs.length := by
  cases cs with
  | nil => simp [readEscape]
  | cons c cs =>
      simp only [readEscape]
      split
      · simp
      · split
        · cases cs with
          | nil => simp
          | cons d ds =>
              simp only [List.length_cons]
              omega
        · simp

theorem readElement_rest_lt (quote c : Char) (cs : List Char) :
    (readElement quote (c :: cs)).rest.length < (c :: cs).length := by
  have h := readEscape_rest_le quote cs
  simp only [readElement]
  split
  · simp only [Reading.prepend_rest, List.length_cons]
    omega
  · split
    · simp
    · split <;> simp

def readString : List Char → Reading Unit
  | [] => ⟨.error .unterminatedString, [], []⟩
  | c :: cs =>
    if c = '"' then ⟨.ok (), [c], cs⟩
    else
      let element := readElement '"' (c :: cs)
      match element.result with
      | .error _ => element
      | .ok () => (readString element.rest).prepend element.text
termination_by cs => cs.length
decreasing_by exact readElement_rest_lt '"' c cs

def readCharacter (cs : List Char) : Reading Unit :=
  if cs.head? = some '\'' then ⟨.error .emptyCharacter, ['\''], cs.drop 1⟩
  else
    let element := readElement '\'' cs
    match element.result with
    | .error _ => element
    | .ok () =>
      match element.rest with
      | [] => ⟨.error .unterminatedCharacter, element.text, []⟩
      | c :: rest =>
        ⟨if c = '\'' then .ok () else .error .unterminatedCharacter, element.text ++ [c], rest⟩

/-- The characters that words consist of behind the first, which is no digit. -/
def isWordChar (c : Char) : Bool :=
  c.isAlphanum || c = '_'

def doubleSign? (first second : Char) : Option TokenKind :=
  match first, second with
  | '=', '=' => some .equalsEquals
  | '!', '=' => some .bangEquals
  | '<', '=' => some .lessEquals
  | '>', '=' => some .greaterEquals
  | '&', '&' => some .andAnd
  | '|', '|' => some .orOr
  | _, _ => none

def singleSign? : Char → Option TokenKind
  | '(' => some .openParen
  | ')' => some .closeParen
  | ',' => some .comma
  | '!' => some .bang
  | '^' => some .caret
  | '+' => some .plus
  | '-' => some .minus
  | '*' => some .star
  | '/' => some .slash
  | '%' => some .percent
  | '=' => some .equals
  | '<' => some .less
  | '>' => some .greater
  | _ => none

def wordKind (word : List Char) : TokenKind :=
  match Keyword.ofText? (String.ofList word) with
  | some keyword => .keyword keyword
  | none => .identifier

/-- Reads a sign, of two characters where there is one, and marks any other character. -/
def readSign (c : Char) (cs : List Char) : Reading TokenKind :=
  match cs.head?.bind (doubleSign? c) with
  | some kind => ⟨.ok kind, c :: cs.take 1, cs.drop 1⟩
  | none =>
    match singleSign? c with
    | some kind => ⟨.ok kind, [c], cs⟩
    | none => ⟨.error (.unexpectedCharacter c), [c], cs⟩

def readLexeme (c : Char) (cs : List Char) : Reading TokenKind :=
  if c = '"' then
    let reading := (readString cs).prepend [c]
    ⟨reading.result.map fun _ => .string, reading.text, reading.rest⟩
  else if c = '\'' then
    let reading := (readCharacter cs).prepend [c]
    ⟨reading.result.map fun _ => .character, reading.text, reading.rest⟩
  else if c.isDigit then
    ⟨.ok .integer, c :: cs.takeWhile Char.isDigit, cs.dropWhile Char.isDigit⟩
  else if isWordChar c then
    ⟨.ok (wordKind (c :: cs.takeWhile isWordChar)), c :: cs.takeWhile isWordChar,
      cs.dropWhile isWordChar⟩
  else readSign c cs

theorem readString_rest_le (cs : List Char) : (readString cs).rest.length ≤ cs.length := by
  fun_induction readString cs with
  | case1 => simp
  | case2 => simp
  | case3 c cs _ element => exact Nat.le_of_lt (readElement_rest_lt '"' c cs)
  | case4 c cs _ element _ ih =>
      have h : element.rest.length < (c :: cs).length := readElement_rest_lt '"' c cs
      simp only [Reading.prepend_rest]
      omega

theorem readElement_rest_le (quote : Char) (cs : List Char) :
    (readElement quote cs).rest.length ≤ cs.length := by
  cases cs with
  | nil => simp [readElement]
  | cons c cs => exact Nat.le_of_lt (readElement_rest_lt quote c cs)

theorem readCharacter_rest_le (cs : List Char) :
    (readCharacter cs).rest.length ≤ cs.length := by
  have h := readElement_rest_le '\'' cs
  simp only [readCharacter]
  split
  · simp
  · split
    · exact h
    · split
      · simp
      · rename_i heq
        rw [heq] at h
        simp only [List.length_cons] at h
        exact Nat.le_of_succ_le h

/-- Reading a lexeme leaves no more than what follows its first character. -/
theorem readLexeme_rest_le (c : Char) (cs : List Char) :
    (readLexeme c cs).rest.length ≤ cs.length := by
  unfold readLexeme
  split
  · exact readString_rest_le cs
  · split
    · exact readCharacter_rest_le cs
    · split
      · exact (List.dropWhile_sublist _).length_le
      · split
        · exact (List.dropWhile_sublist _).length_le
        · unfold readSign
          split
          · simp
          · split <;> simp

end NestedFun
