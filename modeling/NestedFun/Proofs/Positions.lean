import NestedFun.Text.Source
import NestedFun.Proofs.MaximalMunch

namespace NestedFun

/-!
# Where lexemes stand

Everything but comments is ASCII. So in front of a token, or of the first error, a line has as many
bytes as characters.
-/

/-- The size of a text is the number of bytes of its characters. -/
theorem String.utf8ByteSize_eq_byteLength (s : String) : s.utf8ByteSize = byteLength s.toList := by
  have hencode : ∀ cs : List Char, cs.utf8Encode.size = byteLength cs := by
    intro cs
    induction cs with
    | nil => rfl
    | cons c cs ih =>
        rw [List.utf8Encode_cons, ByteArray.size_append, ih]
        simp only [byteLength_cons, List.utf8Encode_singleton, List.size_toByteArray,
          String.length_utf8EncodeChar]
  rw [← String.size_toByteArray, ← String.utf8Encode_toList]
  exact hencode s.toList

/-! ## Lines -/

def AsciiLine (cs : List Char) : Prop := ∀ c ∈ lastLine cs, c.toNat < 128

theorem mem_lastLine_append {c : Char} {cs ds : List Char} (h : c ∈ lastLine (cs ++ ds)) :
    c ∈ lastLine cs ∨ c ∈ ds := by
  rw [lastLine, List.mem_reverse, List.reverse_append, List.takeWhile_append] at h
  split at h
  · rcases List.mem_append.mp h with h | h
    · exact .inr (List.mem_reverse.mp h)
    · exact .inl (List.mem_reverse.mpr h)
  · exact .inr (List.mem_reverse.mp (List.takeWhile_subset _ h))

theorem lastLine_append_newline (cs : List Char) : lastLine (cs ++ ['\n']) = [] := by
  simp [lastLine]

theorem AsciiLine.append {cs ds : List Char} (hcs : AsciiLine cs) (hds : ∀ c ∈ ds, c.toNat < 128) :
    AsciiLine (cs ++ ds) :=
  fun c hc => (mem_lastLine_append hc).elim (hcs c) (hds c)

theorem asciiLine_newline (cs : List Char) : AsciiLine (cs ++ ['\n']) := by
  intro c hc
  rw [lastLine_append_newline] at hc
  cases hc

/-- The last line of a text is ASCII up to a comment that ends with the text. -/
def EndsInComment (cs : List Char) : Prop :=
  ∃ code comment, lastLine cs = code ++ '#' :: comment ∧ ∀ c ∈ code, c.toNat < 128

theorem lastLine_append {cs ds : List Char} (h : '\n' ∉ ds) : lastLine (cs ++ ds) = lastLine cs ++ ds := by
  have hall : ∀ c ∈ ds.reverse, decide (c ≠ '\n') = true := by
    intro c hc
    rw [decide_eq_true_eq]
    rintro rfl
    exact h (List.mem_reverse.mp hc)
  rw [lastLine, lastLine, List.reverse_append, List.takeWhile_append_of_pos hall, List.reverse_append,
    List.reverse_reverse]

/-- Behind blanks and whole comments the line is still ASCII. At the end of a text the last comment may
be on it. -/
theorem Gap.asciiLine {atEnd : Bool} {gap : List Char} (h : Gap atEnd gap) {before : List Char}
    (hbefore : AsciiLine before) :
    AsciiLine (before ++ gap) ∨ atEnd = true ∧ EndsInComment (before ++ gap) := by
  induction h generalizing before with
  | nil => exact .inl (by rwa [List.append_nil])
  | @blank c cs hc _ ih =>
      have hascii : AsciiLine (before ++ [c]) := by
        refine hbefore.append fun d hd => ?_
        rw [List.mem_singleton.mp hd]
        have hall : ∀ c ∈ [' ', '\t', '\n', '\x0c', '\r'], c.toNat < 128 := by
          simp only [List.forall_mem_cons]
          exact ⟨by decide, by decide, by decide, by decide, by decide, nofun⟩
        exact hall c hc
      have hrest := ih hascii
      rwa [List.append_assoc] at hrest
  | @comment body cs hbody _ ih =>
      have hrest := ih (asciiLine_newline (before ++ '#' :: body))
      simpa only [List.append_assoc, List.cons_append, List.nil_append] using hrest
  | @lastComment body hend hbody =>
      have hnewline : '\n' ∉ '#' :: body := by
        rw [List.mem_cons, not_or]
        exact ⟨by decide, hbody⟩
      exact .inr ⟨hend, lastLine before, body, lastLine_append hnewline, hbefore⟩

/-! ## Lexemes are ASCII -/

def Reading.Ascii {α : Type} (reading : Reading α) : Prop :=
  ∀ a, reading.result = .ok a → ∀ c ∈ reading.text, c.toNat < 128

namespace Reading.Ascii

variable {α β : Type} {reading : Reading α}

theorem of_error {e : LexicalError} {text rest : List Char} : Ascii (α := α) ⟨.error e, text, rest⟩ :=
  nofun

theorem of_chars {result : Except LexicalError α} {text rest : List Char}
    (h : ∀ c ∈ text, c.toNat < 128) : Ascii ⟨result, text, rest⟩ :=
  fun _ _ => h

theorem prepend (h : reading.Ascii) {front : List Char} (hfront : ∀ c ∈ front, c.toNat < 128) :
    (reading.prepend front).Ascii := by
  intro a ha c hc
  rw [prepend_text] at hc
  exact (List.mem_append.mp hc).elim (hfront c) (h a ha c)

theorem map (h : reading.Ascii) (f : α → β) :
    Ascii ⟨reading.result.map f, reading.text, reading.rest⟩ := by
  intro b hb
  cases hr : reading.result with
  | error e => simp [hr, Except.map] at hb
  | ok a => exact h a hr

end Reading.Ascii

theorem toNat_lt_of_le {c d : Char} (h : c ≤ d) (hd : d.toNat < 128) : c.toNat < 128 :=
  Nat.lt_of_le_of_lt (UInt32.le_iff_toNat_le.mp h) hd

theorem isDigit_ascii {c : Char} (h : c.isDigit = true) : c.toNat < 128 := by
  have hle : c ≤ '9' := by
    simp only [Char.isDigit, Bool.and_eq_true, decide_eq_true_eq] at h
    exact h.2
  exact toNat_lt_of_le hle (by decide)

theorem isUpperHex_ascii {c : Char} (h : isUpperHex c = true) : c.toNat < 128 := by
  simp only [isUpperHex, Bool.or_eq_true, Bool.and_eq_true, decide_eq_true_eq] at h
  rcases h with h | ⟨-, h⟩
  · exact isDigit_ascii h
  · exact toNat_lt_of_le h (by decide)

theorem isWordChar_ascii {c : Char} (h : isWordChar c = true) : c.toNat < 128 := by
  unfold isWordChar Char.isAlphanum Char.isAlpha Char.isUpper Char.isLower at h
  simp only [Bool.or_eq_true, Bool.and_eq_true, decide_eq_true_eq] at h
  rcases h with ((⟨-, h⟩ | ⟨-, h⟩) | h) | rfl
  · exact toNat_lt_of_le (d := 'Z') h (by decide)
  · exact toNat_lt_of_le (d := 'z') h (by decide)
  · exact isDigit_ascii h
  · decide

theorem readEscape_ascii {quote : Char} (hquote : quote.toNat < 128) (cs : List Char) :
    (readEscape quote cs).Ascii := by
  cases cs with
  | nil => exact .of_error
  | cons c cs =>
      simp only [readEscape]
      split
      · rename_i hc
        refine .of_chars fun d hd => ?_
        rw [List.mem_singleton.mp hd]
        simp only [Bool.or_eq_true, decide_eq_true_eq] at hc
        rcases hc with (rfl | rfl) | rfl
        · decide
        · decide
        · exact hquote
      · split
        · rename_i hc
          cases cs with
          | nil => exact .of_error
          | cons d ds =>
              simp only
              split
              · rename_i hd
                refine .of_chars fun e he => ?_
                rcases List.mem_cons.mp he with rfl | he
                · exact isUpperHex_ascii hc
                · rw [List.mem_singleton.mp he]
                  exact isUpperHex_ascii hd
              · exact .of_error
        · exact .of_error

theorem readElement_ascii {quote : Char} (hquote : quote.toNat < 128) (cs : List Char) :
    (readElement quote cs).Ascii := by
  cases cs with
  | nil => exact .of_error
  | cons c cs =>
      simp only [readElement]
      split
      · rename_i hc
        refine (readEscape_ascii hquote cs).prepend fun d hd => ?_
        rw [List.mem_singleton.mp hd, hc]
        decide
      · split
        · exact .of_error
        · split
          · rename_i hc
            refine .of_chars fun d hd => ?_
            rw [List.mem_singleton.mp hd]
            simp only [Bool.and_eq_true, decide_eq_true_eq] at hc
            exact toNat_lt_of_le hc.2 (by decide)
          · exact .of_error

theorem readString_ascii (cs : List Char) : (readString cs).Ascii := by
  fun_induction readString cs with
  | case1 => exact .of_error
  | case2 cs => exact .of_chars fun d hd => by rw [List.mem_singleton.mp hd]; decide
  | case3 c cs hc element e he => exact readElement_ascii (by decide) (c :: cs)
  | case4 c cs hc element he ih =>
      exact ih.prepend (@readElement_ascii '"' (by decide) (c :: cs) () he)

theorem readCharacter_ascii (cs : List Char) : (readCharacter cs).Ascii := by
  have helement := @readElement_ascii '\'' (by decide) cs
  simp only [readCharacter]
  split
  · exact .of_error
  · cases hr : (readElement '\'' cs).result with
    | error e =>
        intro a ha
        simp only [hr] at ha
        cases ha
    | ok u =>
        simp only
        split
        · exact .of_error
        · rename_i c rest hrest
          split
          · rename_i hc
            refine .of_chars fun d hd => ?_
            rcases List.mem_append.mp hd with hd | hd
            · exact helement u hr d hd
            · rw [List.mem_singleton.mp hd, hc]
              decide
          · exact .of_error

theorem doubleSign?_ascii {c d : Char} {kind : TokenKind} (h : doubleSign? c d = some kind) :
    c.toNat < 128 ∧ d.toNat < 128 := by
  rw [doubleSign?.eq_def] at h
  split at h <;> first | (cases h; done) | decide

theorem singleSign?_ascii {c : Char} {kind : TokenKind} (h : singleSign? c = some kind) :
    c.toNat < 128 := by
  rw [singleSign?.eq_def] at h
  split at h <;> first | (cases h; done) | decide

theorem readSign_ascii (c : Char) (cs : List Char) : (readSign c cs).Ascii := by
  unfold readSign
  split
  · rename_i kind hkind
    cases cs with
    | nil => simp at hkind
    | cons d ds =>
        obtain ⟨hc, hd⟩ := doubleSign?_ascii (by simpa using hkind)
        refine .of_chars fun e he => ?_
        rcases List.mem_cons.mp he with rfl | he
        · exact hc
        · rw [List.mem_singleton.mp he]
          exact hd
  · split
    · rename_i kind hkind
      refine .of_chars fun d hd => ?_
      rw [List.mem_singleton.mp hd]
      exact singleSign?_ascii hkind
    · exact .of_error

/-- A character and more that pass a test. -/
theorem takeWhile_ascii {p : Char → Bool} (hp : ∀ c, p c = true → c.toNat < 128) {c : Char}
    (hc : p c = true) (cs : List Char) : ∀ d ∈ c :: cs.takeWhile p, d.toNat < 128 := by
  intro d hd
  rcases List.mem_cons.mp hd with rfl | hd
  · exact hp d hc
  · exact hp d (List.all_eq_true.mp List.all_takeWhile d hd)

/-- The text of every token is ASCII. -/
theorem readLexeme_ascii (c : Char) (cs : List Char) : (readLexeme c cs).Ascii := by
  have hquote : ∀ {quote : Char}, quote.toNat < 128 → ∀ d ∈ [quote], d.toNat < 128 :=
    fun hquote d hd => (List.mem_singleton.mp hd).symm ▸ hquote
  unfold readLexeme
  split
  · rename_i hc
    exact ((readString_ascii cs).prepend (hquote (by rw [hc]; decide))).map _
  · split
    · rename_i hc
      exact ((readCharacter_ascii cs).prepend (hquote (by rw [hc]; decide))).map _
    · split
      · rename_i hc
        exact .of_chars (takeWhile_ascii (fun _ => isDigit_ascii) hc cs)
      · split
        · rename_i hc
          exact .of_chars (takeWhile_ascii (fun _ => isWordChar_ascii) hc cs)
        · exact readSign_ascii c cs

/-! ## Lexemes in a text -/

def Marked (cs : List Char) (span : Span) : Prop :=
  ∃ before inside after, cs = before ++ (inside ++ after) ∧
    span = ⟨byteLength before, byteLength before + byteLength inside⟩ ∧ AsciiLine before

/-- A place in a text where lexing goes on, at a line that is ASCII up to there. -/
structure Cursor.Stands (cs : List Char) (cursor : Cursor) : Prop where
  exists_before : ∃ before, cs = before ++ cursor.rest ∧ cursor.position = byteLength before ∧
    AsciiLine before

namespace Cursor.Stands

variable {cs : List Char} {cursor : Cursor}

theorem start (cs : List Char) : Stands cs (.start cs) := ⟨[], rfl, rfl, nofun⟩

/-- The next lexeme is marked. -/
theorem marked (h : Stands cs cursor) {c : Char} {ds : List Char}
    (hnext : unskipped false cursor.rest = c :: ds) : Marked cs (outcomeSpan cursor.next.1) := by
  obtain ⟨before, hcs, hposition, hascii⟩ := h.exists_before
  have hgap := gap_skipped false cursor.rest
  rw [hnext] at hgap
  refine ⟨before ++ skipped false cursor.rest, (readLexeme c ds).text, (readLexeme c ds).rest, ?_, ?_,
    (hgap.asciiLine hascii).resolve_right fun hend => Bool.noConfusion hend.1⟩
  · rw [List.append_assoc, ← rest_eq hnext, ← hcs]
  · rw [next_eq hnext, Reading.outcomeSpan_outcome, hposition, byteLength_append]

/-- Behind a token lexing goes on. -/
theorem next (h : Stands cs cursor) {c : Char} {ds : List Char}
    (hnext : unskipped false cursor.rest = c :: ds) {token : Token} (htoken : cursor.next.1 = .ok token) :
    Stands cs cursor.next.2 := by
  obtain ⟨before, hcs, hposition, hascii⟩ := h.exists_before
  have hgap := gap_skipped false cursor.rest
  rw [hnext] at hgap
  have hline := (hgap.asciiLine hascii).resolve_right fun hend => Bool.noConfusion hend.1
  rw [next_eq hnext] at htoken ⊢
  have hresult : ∃ kind, (readLexeme c ds).result = .ok kind := by
    cases hr : (readLexeme c ds).result with
    | error e => simp [Reading.outcome, hr] at htoken
    | ok kind => exact ⟨kind, rfl⟩
  obtain ⟨kind, hkind⟩ := hresult
  refine ⟨before ++ skipped false cursor.rest ++ (readLexeme c ds).text, ?_, ?_,
    hline.append (readLexeme_ascii c ds kind hkind)⟩
  · rw [List.append_assoc, List.append_assoc, ← rest_eq hnext, ← hcs]
  · simp only [byteLength_append, hposition]

/-- Behind several tokens lexing goes on. -/
theorem behind (h : Stands cs cursor) {front : List Token} {back : List (Except CompileError Token)}
    (hitems : cursor.scan.items = front.map .ok ++ back) :
    ∃ cursor', Stands cs cursor' ∧ cursor'.scan.items = back := by
  induction front generalizing cursor with
  | nil => exact ⟨cursor, h, hitems⟩
  | cons token front ih =>
      cases hnext : unskipped false cursor.rest with
      | nil =>
          rw [scan_end hnext] at hitems
          cases hitems
      | cons c ds =>
          rw [scan_step hnext] at hitems
          obtain ⟨htoken, hrest⟩ := List.cons.inj hitems
          exact ih (h.next hnext htoken) hrest

/-- At the end of the text there may be a comment on the line. -/
theorem ends (h : Stands cs cursor) (hend : cursor.scan.items = []) :
    AsciiLine cs ∨ EndsInComment cs := by
  obtain ⟨before, hcs, -, hascii⟩ := h.exists_before
  cases hnext : unskipped false cursor.rest with
  | cons c ds =>
      rw [scan_step hnext] at hend
      cases hend
  | nil =>
      have hgap := gap_skipped false cursor.rest
      have hcut := skipped_append_unskipped false cursor.rest
      rw [hnext, List.append_nil] at hcut
      rw [hcut] at hgap
      have hline := @Gap.asciiLine _ cursor.rest hgap _ hascii
      rw [← hcs] at hline
      exact hline.imp_right And.right

end Cursor.Stands

/-- The first error of a text, and every token in front of it, is marked. -/
theorem marked_of_items {cs : List Char} {front : List Token} {outcome : Except CompileError Token}
    {back : List (Except CompileError Token)}
    (h : (Cursor.start cs).scan.items = front.map .ok ++ outcome :: back) :
    Marked cs (outcomeSpan outcome) := by
  obtain ⟨cursor, hstands, hitems⟩ := (Cursor.Stands.start cs).behind h
  cases hnext : unskipped false cursor.rest with
  | nil =>
      rw [Cursor.scan_end hnext] at hitems
      cases hitems
  | cons c ds =>
      rw [Cursor.scan_step hnext] at hitems
      rw [← (List.cons.inj hitems).1]
      exact hstands.marked hnext

theorem asciiLine_of_items {cs : List Char} {tokens : List Token}
    (h : (Cursor.start cs).scan.items = tokens.map .ok) : AsciiLine cs ∨ EndsInComment cs := by
  have hitems : (Cursor.start cs).scan.items = tokens.map .ok ++ [] := by rw [h, List.append_nil]
  obtain ⟨cursor, hstands, hend⟩ := (Cursor.Stands.start cs).behind hitems
  exact hstands.ends hend

/-! ## Stretches of a text -/

theorem byteLength_eq_zero {cs : List Char} (h : byteLength cs = 0) : cs = [] := by
  cases cs with
  | nil => rfl
  | cons c cs =>
      have hpos := c.utf8Size_pos
      rw [byteLength_cons] at h
      omega

/-- Of two starts of a text the one with fewer bytes is the start of the other. -/
theorem prefix_of_byteLength_le {xs ys cs : List Char} (hxs : xs <+: cs) (hys : ys <+: cs)
    (h : byteLength xs ≤ byteLength ys) : xs <+: ys := by
  rcases List.prefix_or_prefix_of_prefix hxs hys with hprefix | ⟨zs, rfl⟩
  · exact hprefix
  · rw [byteLength_append] at h
    rw [@byteLength_eq_zero zs (by omega), List.append_nil]

theorem Marked.le {cs : List Char} {span : Span} (h : Marked cs span) :
    span.start ≤ span.stop ∧ span.stop ≤ byteLength cs := by
  obtain ⟨before, inside, after, rfl, rfl, -⟩ := h
  simp only [byteLength_append]
  omega

/-- A stretch from the start of one stretch to the end of a later one. -/
theorem Marked.join {cs : List Char} {a b : Span} (ha : Marked cs a) (hb : Marked cs b)
    (h : a.start ≤ b.stop) : Marked cs ⟨a.start, b.stop⟩ := by
  obtain ⟨before, inside, after, hcs, rfl, hascii⟩ := ha
  obtain ⟨before', inside', after', hcs', rfl, -⟩ := hb
  have hprefix : before <+: before' ++ inside' := by
    refine @prefix_of_byteLength_le _ _ cs ⟨inside ++ after, hcs.symm⟩ ⟨after', ?_⟩ ?_
    · rw [List.append_assoc, hcs']
    · rw [byteLength_append]
      exact h
  obtain ⟨between, hbetween⟩ := hprefix
  refine ⟨before, between, after', ?_, ?_, hascii⟩
  · rw [← List.append_assoc, hbetween, List.append_assoc, hcs']
  · have hlength := congrArg byteLength hbetween
    simp only [byteLength_append] at hlength
    simp only [hlength]

end NestedFun
