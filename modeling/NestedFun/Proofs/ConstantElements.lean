import Mathlib.Data.List.Forall2
import NestedFun.Token.Lexeme

namespace NestedFun

/-!
# Elements of constants

Between the quotes of a constant stand elements, each of which spells one character. Reading a
constant and decoding it are two loops of their own; both cut the inside at the same places, because
each of them takes an element away whatever follows it.
-/

def hexDigits : List Char := "0123456789ABCDEF".toList

/-- An element of a constant between quotes of a kind spells the character with a code. -/
inductive ElementCode (quote : Char) : List Char → Nat → Prop
  | plain {c : Char} (hprinted : ' ' ≤ c ∧ c ≤ '~') (hbackslash : c ≠ '\\') (hquote : c ≠ quote) :
      ElementCode quote [c] c.toNat
  | newline : ElementCode quote ['\\', 'n'] 10
  | backslash : ElementCode quote ['\\', '\\'] 92
  | quote : ElementCode quote ['\\', quote] quote.toNat
  | hex {high low : Char} {m n : Nat} (hhigh : hexDigits[m]? = some high)
      (hlow : hexDigits[n]? = some low) : ElementCode quote ['\\', high, low] (16 * m + n)

def IsQuote (quote : Char) : Prop := quote = '"' ∨ quote = '\''

theorem isUpperHex_hexDigits : ∀ m : Fin hexDigits.length,
    isUpperHex (hexDigits[m]) = true ∧ hexValue (hexDigits[m]) = m := by
  decide

theorem isUpperHex_of_hexDigits {c : Char} {m : Nat} (h : hexDigits[m]? = some c) :
    isUpperHex c = true ∧ hexValue c = m ∧ m < 16 := by
  obtain ⟨hm, rfl⟩ := List.getElem?_eq_some_iff.mp h
  obtain ⟨hupper, hvalue⟩ := isUpperHex_hexDigits ⟨m, hm⟩
  exact ⟨hupper, hvalue, hm⟩

theorem hexDigits_of_isUpperHex {c : Char} (h : isUpperHex c = true) :
    hexDigits[hexValue c]? = some c := by
  have hall : ∀ n < 71, isUpperHex (Char.ofNat n) = true →
      hexDigits[hexValue (Char.ofNat n)]? = some (Char.ofNat n) := by decide
  have hle : c.toNat < 71 := by
    simp only [isUpperHex, Char.isDigit, Bool.or_eq_true, Bool.and_eq_true, decide_eq_true_eq] at h
    rcases h with h | h
    · have := UInt32.le_iff_toNat_le.mp h.2
      simp only [Char.toNat]
      have : '9'.val.toNat = 57 := rfl
      omega
    · have := UInt32.le_iff_toNat_le.mp (Char.le_def.mp h.2)
      simp only [Char.toNat]
      have : 'F'.val.toNat = 70 := rfl
      omega
  have := hall c.toNat hle
  rw [Char.ofNat_toNat] at this
  exact this h

namespace ElementCode

variable {quote : Char} {piece : List Char} {code : Nat}

theorem lt (h : ElementCode quote piece code) (hquote : IsQuote quote) : code < 256 := by
  cases h with
  | plain hprinted =>
      have := UInt32.le_iff_toNat_le.mp (Char.le_def.mp hprinted.2)
      have : '~'.val.toNat = 126 := rfl
      simp only [Char.toNat]
      omega
  | newline | backslash => decide
  | quote => rcases hquote with rfl | rfl <;> decide
  | hex hhigh hlow =>
      have := (isUpperHex_of_hexDigits hhigh).2.2
      have := (isUpperHex_of_hexDigits hlow).2.2
      omega

/-- An element does not start like the end of the constant. -/
theorem head_ne (h : ElementCode quote piece code) (hquote : IsQuote quote) :
    ∃ c cs, piece = c :: cs ∧ c ≠ quote := by
  have hslash : '\\' ≠ quote := by rcases hquote with rfl | rfl <;> decide
  cases h with
  | plain _ _ hne => exact ⟨_, _, rfl, hne⟩
  | newline | backslash | quote | hex => exact ⟨_, _, rfl, hslash⟩

/-- An element is read as one character. -/
theorem reads (h : ElementCode quote piece code) (hquote : IsQuote quote) (more : List Char) :
    readElement quote (piece ++ more) = ⟨.ok (), piece, more⟩ := by
  cases h with
  | @plain c hprinted hbackslash hne =>
      have hline : c ≠ '\n' := by
        rintro rfl
        exact absurd hprinted.1 (by decide)
      simp [readElement, hbackslash, hline, hprinted]
  | newline | backslash => rfl
  | quote => simp [readElement, readEscape, Reading.prepend]
  | @hex high low m n hhigh hlow =>
      obtain ⟨hupper, -⟩ := isUpperHex_of_hexDigits hhigh
      obtain ⟨hupper', -⟩ := isUpperHex_of_hexDigits hlow
      have hnot : high ≠ 'n' ∧ high ≠ '\\' ∧ high ≠ quote := by
        refine ⟨?_, ?_, ?_⟩
        · rintro rfl
          exact absurd hupper (by decide)
        · rintro rfl
          exact absurd hupper (by decide)
        · rintro rfl
          rcases hquote with rfl | rfl <;> exact absurd hupper (by decide)
      simp [readElement, readEscape, Reading.prepend, hnot, hupper, hupper']

/-- An element stands for the character with its code. -/
theorem unescape_append (h : ElementCode quote piece code) (hquote : IsQuote quote)
    (more : List Char) : unescape (piece ++ more) = Char.ofNat code :: unescape more := by
  cases h with
  | @plain c hprinted hbackslash hne =>
      rw [List.singleton_append, Char.ofNat_toNat, unescape]
      · exact fun h => absurd h hbackslash
      · exact fun _ _ h => absurd h hbackslash
  | newline | backslash => cases more <;> simp [unescape, isUpperHex]
  | quote => rcases hquote with rfl | rfl <;> cases more <;> simp [unescape, isUpperHex]
  | @hex high low m n hhigh hlow =>
      obtain ⟨hupper, hvalue, -⟩ := isUpperHex_of_hexDigits hhigh
      obtain ⟨-, hvalue', -⟩ := isUpperHex_of_hexDigits hlow
      have hnot : high ≠ 'n' := by
        rintro rfl
        exact absurd hupper (by decide)
      simp only [List.cons_append, List.nil_append, unescape, if_neg hnot, if_pos hupper, hexChar,
        hvalue, hvalue']
      rw [Nat.mul_comm]

end ElementCode

/-- What is read behind a backslash is an element with it. -/
theorem elementCode_of_readEscape {quote : Char} {cs : List Char}
    (h : (readEscape quote cs).result = .ok ()) :
    ∃ code, ElementCode quote ('\\' :: (readEscape quote cs).text) code := by
  cases cs with
  | nil => cases h
  | cons c cs =>
      simp only [readEscape] at h ⊢
      split at h
      · rename_i hc
        rw [if_pos hc]
        simp only [Bool.or_eq_true, decide_eq_true_eq] at hc
        rcases hc with (rfl | rfl) | rfl
        · exact ⟨_, .newline⟩
        · exact ⟨_, .backslash⟩
        · exact ⟨_, .quote⟩
      · rename_i hc
        rw [if_neg hc]
        split at h
        · rename_i hupper
          rw [if_pos hupper]
          cases cs with
          | nil => cases h
          | cons d ds =>
              simp only at h ⊢
              split at h
              · rename_i hupper'
                exact ⟨_, .hex (hexDigits_of_isUpperHex hupper) (hexDigits_of_isUpperHex hupper')⟩
              · cases h
        · cases h

/-- What is read as one character is an element. -/
theorem elementCode_of_readElement {quote : Char} {cs : List Char} (hquote : cs.head? ≠ some quote)
    (h : (readElement quote cs).result = .ok ()) :
    ∃ code, ElementCode quote (readElement quote cs).text code := by
  cases cs with
  | nil => cases h
  | cons c cs =>
      rw [readElement] at h ⊢
      split at h
      · rename_i hc
        rw [if_pos hc, Reading.prepend_text, hc]
        exact elementCode_of_readEscape h
      · rename_i hc
        rw [if_neg hc]
        split at h
        · cases h
        · rename_i hline
          rw [if_neg hline]
          split at h
          · rename_i hprinted
            rw [if_pos hprinted]
            simp only [Bool.and_eq_true, decide_eq_true_eq] at hprinted
            exact ⟨_, .plain hprinted hc fun hquote' => hquote (congrArg some hquote')⟩
          · cases h

/-- Decoding takes a text of elements apart into just these. -/
theorem unescape_elements {quote : Char} (hquote : IsQuote quote) {pieces : List (List Char)}
    {codes : List Nat} (h : List.Forall₂ (ElementCode quote) pieces codes) :
    unescape pieces.flatten = codes.map Char.ofNat := by
  induction h with
  | nil => rfl
  | cons hpiece _ ih => rw [List.flatten_cons, hpiece.unescape_append hquote, ih, List.map_cons]

/-- Reading one element after the other up to the closing quote finds these pieces. -/
inductive ReadsElements (quote : Char) : List Char → List (List Char) → List Char → Prop
  | close {rest : List Char} : ReadsElements quote (quote :: rest) [] rest
  | element {cs piece more : List Char} {pieces : List (List Char)} {rest : List Char}
      (hquote : cs.head? ≠ some quote) (hread : readElement quote cs = ⟨.ok (), piece, more⟩)
      (h : ReadsElements quote more pieces rest) : ReadsElements quote cs (piece :: pieces) rest

/-- What is read element by element consists of elements, and is cut where they end. -/
theorem ReadsElements.elements {quote : Char} {cs rest : List Char} {pieces : List (List Char)}
    (h : ReadsElements quote cs pieces rest) :
    ∃ codes, List.Forall₂ (ElementCode quote) pieces codes := by
  induction h with
  | close => exact ⟨[], .nil⟩
  | @element cs piece more pieces rest hquote hread _ ih =>
      obtain ⟨codes, hcodes⟩ := ih
      obtain ⟨code, hcode⟩ := elementCode_of_readElement hquote (by rw [hread])
      rw [hread] at hcode
      exact ⟨code :: codes, .cons hcode hcodes⟩

/-- Reading a string constant finds its elements. -/
theorem readString_elements (cs : List Char) (h : (readString cs).result = .ok ()) :
    ∃ pieces, (readString cs).text = pieces.flatten ++ ['"'] ∧
      ReadsElements '"' cs pieces (readString cs).rest := by
  fun_induction readString cs with
  | case1 => cases h
  | case2 cs => exact ⟨[], rfl, .close⟩
  | case3 c cs hc element e he =>
      rw [he] at h
      cases h
  | case4 c cs hc element he ih =>
      obtain ⟨pieces, htext, hpieces⟩ := ih h
      have hread : element = ⟨.ok (), element.text, element.rest⟩ := by rw [← he]
      refine ⟨element.text :: pieces, ?_,
        .element (fun hquote => hc (Option.some.inj hquote)) hread hpieces⟩
      rw [Reading.prepend_text, htext, List.flatten_cons, List.append_assoc]

/-- Reading a character constant finds one element. -/
theorem readCharacter_elements {cs : List Char} (h : (readCharacter cs).result = .ok ()) :
    ∃ piece, (readCharacter cs).text = piece ++ ['\''] ∧
      ReadsElements '\'' cs [piece] (readCharacter cs).rest := by
  simp only [readCharacter] at h ⊢
  split at h
  · cases h
  · rename_i hhead
    rw [if_neg hhead]
    cases hread : readElement '\'' cs with
    | mk result text more =>
        rw [hread] at h
        cases result with
        | error e => cases h
        | ok u =>
            cases more with
            | nil => cases h
            | cons c rest =>
                simp only at h ⊢
                split at h
                · rename_i hc
                  subst hc
                  exact ⟨text, rfl, .element hhead hread .close⟩
                · cases h

end NestedFun
