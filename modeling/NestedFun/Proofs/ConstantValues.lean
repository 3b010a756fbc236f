import NestedFun.Proofs.TextConstants

namespace NestedFun

/-!
# Values of constants

The character and string constants of a text are decoded one character for each element that was
read, with the meaning of this element. A text of any codes can be written as a string constant.
-/

def TokenKind.quote? : TokenKind → Option Char
  | character => some '\''
  | string => some '"'
  | _ => none

theorem TokenKind.isQuote {kind : TokenKind} {quote : Char} (h : kind.quote? = some quote) :
    IsQuote quote := by
  cases kind <;> cases h
  · exact .inr rfl
  · exact .inl rfl

/-- A constant is read as the elements between its quotes. -/
theorem readLexeme_constant {c : Char} {cs : List Char} {kind : TokenKind} {quote : Char}
    (hkind : kind.quote? = some quote) (h : (readLexeme c cs).result = .ok kind) :
    c = quote ∧ ∃ pieces, (readLexeme c cs).text = quote :: (pieces.flatten ++ [quote]) ∧
      ReadsElements quote cs pieces (readLexeme c cs).rest ∧
      (kind = .character → pieces.length = 1) := by
  unfold readLexeme at h ⊢
  split at h
  · rename_i hc
    rw [if_pos hc]
    cases hread : (readString cs).result with
    | error e => simp [Reading.prepend, hread, Except.map] at h
    | ok u =>
        obtain rfl : TokenKind.string = kind := by
          simpa [Reading.prepend, hread, Except.map] using h
        cases hkind
        obtain ⟨pieces, htext, hpieces⟩ := readString_elements cs hread
        refine ⟨hc, pieces, ?_, hpieces, fun hcharacter => by cases hcharacter⟩
        rw [Reading.prepend_text, htext, hc]
        rfl
  · rename_i hstring
    rw [if_neg hstring]
    split at h
    · rename_i hc
      rw [if_pos hc]
      cases hread : (readCharacter cs).result with
      | error e => simp [Reading.prepend, hread, Except.map] at h
      | ok u =>
          obtain rfl : TokenKind.character = kind := by
            simpa [Reading.prepend, hread, Except.map] using h
          cases hkind
          obtain ⟨piece, htext, hpiece⟩ := readCharacter_elements hread
          refine ⟨hc, [piece], ?_, hpiece, fun _ => rfl⟩
          rw [Reading.prepend_text, htext, hc]
          simp
    · split at h
      · cases h
        cases hkind
      · split at h
        · rcases wordKind_cases (c :: cs.takeWhile isWordChar) with hword | ⟨keyword, hword⟩
          · rw [hword] at h
            cases h
            cases hkind
          · rw [hword] at h
            cases h
            cases hkind
        · obtain ⟨-, -, hcharacter, hstring'⟩ := readSign_kind h
          cases kind with
          | character => exact absurd rfl hcharacter
          | string => exact absurd rfl hstring'
          | _ => cases hkind

/-- Every token that lexing finds was read at its place in the text. -/
theorem Cursor.exists_readLexeme (cursor : Cursor) {token : Token}
    (h : .ok token ∈ cursor.scan.items) : ∃ before c cs, cursor.rest = before ++ c :: cs ∧
      (readLexeme c cs).result = .ok token.kind ∧ token.lexeme = (readLexeme c cs).text ∧
      token.span = ⟨cursor.position + byteLength before,
        cursor.position + byteLength before + byteLength token.lexeme⟩ := by
  induction cursor using Cursor.scan.induct with
  | case1 cursor hend =>
      rw [Cursor.scan_end hend] at h
      cases h
  | case2 cursor c cs hrest found ih =>
      have hfound : found = cursor.next := rfl
      have hcut : skipped false cursor.rest ++ c :: cs = cursor.rest := by
        rw [← hrest, skipped_append_unskipped]
      rw [Cursor.scan_step hrest] at h
      rcases List.mem_cons.mp h with hfirst | hmem
      · rw [Cursor.next_eq hrest] at hfirst
        obtain ⟨hresult, hlexeme⟩ := Reading.outcome_ok hfirst.symm
        have hspan := congrArg outcomeSpan hfirst
        rw [Reading.outcomeSpan_outcome] at hspan
        refine ⟨skipped false cursor.rest, c, cs, hcut.symm, hresult, hlexeme, ?_⟩
        rw [hlexeme]
        exact hspan
      · obtain ⟨before, d, ds, hsplit, hresult, hlexeme, hspan⟩ := ih (hfound ▸ hmem)
        rw [hfound, Cursor.next_eq hrest] at hsplit hspan
        refine ⟨skipped false cursor.rest ++ ((readLexeme c cs).text ++ before), d, ds, ?_, hresult,
          hlexeme, ?_⟩
        · refine (Cursor.rest_eq hrest).trans ?_
          simp only at hsplit
          rw [hsplit]
          simp only [List.append_assoc]
        · simpa only [byteLength_append, Nat.add_assoc] using hspan

/-- A constant that stands in a text, with the elements that were read for it there, is decoded to
the characters with the codes that these spell. -/
structure Token.Decoded (token : Token) (quote : Char) (before : List Char)
    (pieces : List (List Char)) (after : List Char) (codes : List Nat) : Prop where
  lexeme_eq : token.lexeme = quote :: (pieces.flatten ++ [quote])
  span_eq : token.span = ⟨byteLength before, byteLength before + byteLength token.lexeme⟩
  reads : ReadsElements quote (pieces.flatten ++ quote :: after) pieces after
  spell : List.Forall₂ (ElementCode quote) pieces codes
  decoded : (constantChars token.lexeme).map Char.toNat = codes
  codes_le : ∀ code ∈ codes, code ≤ 255
  one : token.kind = .character → codes.length = 1

theorem toNat_ofNat : ∀ code : Fin 256, (Char.ofNat code).toNat = code := by
  decide +kernel

theorem map_toNat_ofNat {codes : List Nat} (h : ∀ code ∈ codes, code < 256) :
    (codes.map Char.ofNat).map Char.toNat = codes := by
  rw [List.map_map]
  exact (List.map_congr_left fun code hcode => toNat_ofNat ⟨code, h code hcode⟩).trans (List.map_id _)

/-- The constants that lexing finds are decoded element by element. -/
theorem Cursor.decoded_of_scan {cs : List Char} {token : Token} {quote : Char}
    (h : .ok token ∈ (Cursor.start cs).scan.items) (hkind : token.kind.quote? = some quote) :
    ∃ before pieces after codes, cs = before ++ (token.lexeme ++ after) ∧
      token.Decoded quote before pieces after codes := by
  have hquote := TokenKind.isQuote hkind
  obtain ⟨before, c, inside, hsplit, hresult, hlexeme, hspan⟩ :=
    Cursor.exists_readLexeme (.start cs) h
  have hsplits := readLexeme_splits (c := c) (by
    obtain ⟨rfl, -⟩ := readLexeme_constant hkind hresult
    rcases hquote with rfl | rfl <;> decide) inside
  obtain ⟨rfl, pieces, htext, hreads, hone⟩ := readLexeme_constant hkind hresult
  obtain ⟨codes, hcodes⟩ := hreads.elements
  have hlt : ∀ code ∈ codes, code < 256 := by
    clear hreads hone htext
    induction hcodes with
    | nil => exact nofun
    | cons hpiece _ ih => exact List.forall_mem_cons.mpr ⟨hpiece.lt hquote, ih⟩
  have hinside : inside = pieces.flatten ++ c :: (readLexeme c inside).rest := by
    have happend := hsplits.append_eq
    rw [htext] at happend
    simpa using (List.cons.inj happend).2.symm
  refine ⟨before, pieces, (readLexeme c inside).rest, codes, ?_, ?_⟩
  · rw [hlexeme, hsplits.append_eq]
    exact hsplit
  · refine ⟨hlexeme.trans htext, ?_, hinside ▸ hreads, hcodes, ?_, fun code hcode =>
      Nat.le_of_lt_succ (hlt code hcode), fun hcharacter => ?_⟩
    · simpa [Cursor.start] using hspan
    · rw [hlexeme, htext, constantChars, List.drop_succ_cons, List.drop_zero,
        List.dropLast_concat, unescape_elements hquote hcodes, map_toNat_ofNat hlt]
    · rw [← hcodes.length_eq]
      exact hone hcharacter

/-! ## Constants of given codes -/

def hexDigit (value : Nat) : Char := hexDigits.getD value '0'

def hexEscape (code : Nat) : List Char := ['\\', hexDigit (code / 16), hexDigit (code % 16)]

def hexConstant (codes : List Nat) : List Char := '"' :: (codes.flatMap hexEscape ++ ['"'])

theorem hexDigits_hexDigit {value : Nat} (h : value < 16) :
    hexDigits[value]? = some (hexDigit value) := by
  have hlength : value < hexDigits.length := h
  rw [hexDigit, List.getD_eq_getElem?_getD, List.getElem?_eq_getElem hlength, Option.getD_some]

theorem decodes_hexConstant {codes : List Nat} (h : ∀ code ∈ codes, code < 256) :
    Decodes (hexConstant codes) codes := by
  refine ⟨codes.map hexEscape, by rw [hexConstant, List.flatMap_def], ?_⟩
  induction codes with
  | nil => exact .nil
  | cons code codes ih =>
      obtain ⟨hcode, hcodes⟩ := List.forall_mem_cons.mp h
      have helement : ElementCode '"' (hexEscape code) (16 * (code / 16) + code % 16) :=
        .hex (hexDigits_hexDigit (by omega)) (hexDigits_hexDigit (by omega))
      rw [Nat.div_add_mod] at helement
      exact .cons helement (ih hcodes)

/-- Lexing a string constant by itself finds it and then the end of the text. -/
theorem Decodes.scan_eq {raw : List Char} {codes : List Nat} (h : Decodes raw codes) :
    (Cursor.start raw).scan
      = ⟨[.ok ⟨.string, ⟨0, byteLength raw⟩, raw⟩], byteLength raw⟩ := by
  obtain ⟨inside, rfl, hread⟩ := h.readLexeme
  have hread := hread []
  rw [List.append_nil] at hread
  have hu : unskipped false (Cursor.start ('"' :: inside)).rest = '"' :: inside := rfl
  have hskipped : skipped false (Cursor.start ('"' :: inside)).rest = [] := rfl
  rw [Cursor.scan_step hu, Cursor.next_eq hu, hread, hskipped, Cursor.scan_end rfl]
  simp [Reading.outcome, Cursor.start]

/-- Every character or string constant that a lexer answers with is decoded to one character for
each element that was read, and the text of any codes up to 255, each written as an escape of two
digits, is one string constant that is decoded to just these codes. -/
theorem Lexer.constants_decoded :
    (∀ (cs : List Char) (n : Nat) (token : Token) (quote : Char),
      .ok token ∈ (Lexer.ofText cs).answers (List.replicate n .next) →
      token.kind.quote? = some quote → ∃ before pieces after codes,
        cs = before ++ (token.lexeme ++ after) ∧
          token.Decoded quote before pieces after codes) ∧
    ∀ codes : List Nat, (∀ code ∈ codes, code ≤ 255) →
      (∀ n, (Lexer.ofText (hexConstant codes)).answers (List.replicate n .next)
        = (.ok ⟨.string, ⟨0, byteLength (hexConstant codes)⟩, hexConstant codes⟩ ::
            List.replicate n (.ok (endToken (byteLength (hexConstant codes))))).take n) ∧
        (constantChars (hexConstant codes)).map Char.toNat = codes := by
  constructor
  · intro cs n token quote hmem hkind
    rw [answers_ofText] at hmem
    rcases List.mem_append.mp (List.mem_of_mem_take hmem) with hitem | hend
    · exact Cursor.decoded_of_scan hitem hkind
    · have htoken := Except.ok.inj (List.eq_of_mem_replicate hend)
      rw [htoken] at hkind
      cases hkind
  · intro codes hcodes
    have hlt : ∀ code ∈ codes, code < 256 := fun code hcode => Nat.lt_succ_of_le (hcodes code hcode)
    have hdecodes := decodes_hexConstant hlt
    refine ⟨fun n => ?_, ?_⟩
    · rw [answers_ofText, hdecodes.scan_eq]
      rfl
    · rw [hdecodes.constantChars_eq, map_toNat_ofNat hlt]

def constantsSample : List Char := "s = \"a\\n\\\"'\\FF\" + '\\''".toList

def stringSample : Token := ⟨.string, ⟨4, 15⟩, "\"a\\n\\\"'\\FF\"".toList⟩

/-- The third token of the text is decoded, and so is a constant of three codes. -/
theorem Lexer.constants_decoded_sample :
    .ok stringSample ∈ (Lexer.ofText constantsSample).answers (List.replicate 3 .next) ∧
      stringSample.kind.quote? = some '"' ∧
      (constantChars stringSample.lexeme).map Char.toNat = [97, 10, 34, 39, 255] ∧
      (∃ before pieces after codes,
        constantsSample = before ++ (stringSample.lexeme ++ after) ∧
          stringSample.Decoded '"' before pieces after codes) ∧
      hexConstant [0, 10, 255] = "\"\\00\\0A\\FF\"".toList ∧
      (∀ code ∈ [0, 10, 255], code ≤ 255) ∧
      (constantChars (hexConstant [0, 10, 255])).map Char.toNat = [0, 10, 255] := by
  have hanswers : ((Lexer.ofText constantsSample).answers (List.replicate 3 .next)).any
      (fun answer => answer.toOption = some stringSample) = true := by
    decide +kernel
  obtain ⟨answer, hanswer, hvalue⟩ := List.any_eq_true.mp hanswers
  have hmem : .ok stringSample ∈ (Lexer.ofText constantsSample).answers (List.replicate 3 .next) :=
    toOption_eq_some (of_decide_eq_true hvalue) ▸ hanswer
  have hcodes : ∀ code ∈ [0, 10, 255], code ≤ 255 := by decide
  have hkind : stringSample.kind.quote? = some '"' := rfl
  have hchars : (constantChars stringSample.lexeme).map Char.toNat = [97, 10, 34, 39, 255] := by
    decide +kernel
  have hconstant : hexConstant [0, 10, 255] = "\"\\00\\0A\\FF\"".toList := by decide +kernel
  exact ⟨hmem, hkind, hchars, constants_decoded.1 _ 3 _ _ hmem hkind, hconstant, hcodes,
    (constants_decoded.2 _ hcodes).2⟩

end NestedFun
