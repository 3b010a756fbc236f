import NestedFun.Proofs.ConstantElements
import NestedFun.Proofs.TreeNumbering

namespace NestedFun

/-!
# Forms of tokens

Which characters the tokens of a text consist of. No lexeme without error reaches past the end of
its line, so the tokens of a text and of lines put behind it can be told apart.
-/

/-- A reading takes its text from the front of the characters; without error it stays in a line. -/
structure Reading.Splits {α : Type} (reading : Reading α) (cs : List Char) : Prop where
  append_eq : reading.text ++ reading.rest = cs
  oneLine : ∀ a, reading.result = .ok a → '\n' ∉ reading.text

theorem Reading.Splits.prepend {α : Type} {reading : Reading α} {cs : List Char}
    (h : reading.Splits cs) {front : List Char} (hfront : '\n' ∉ front) :
    (reading.prepend front).Splits (front ++ cs) where
  append_eq := by rw [prepend_text, prepend_rest, List.append_assoc, h.append_eq]
  oneLine a ha := by
    rw [prepend_text, List.mem_append]
    exact not_or.mpr ⟨hfront, h.oneLine a ha⟩

theorem isUpperHex_newline : isUpperHex '\n' = false := by decide

theorem readEscape_splits {quote : Char} (hquote : quote ≠ '\n') (cs : List Char) :
    (readEscape quote cs).Splits cs := by
  cases cs with
  | nil => exact ⟨rfl, by simp [readEscape]⟩
  | cons c cs =>
      simp only [readEscape]
      split
      · rename_i hc
        refine ⟨rfl, fun _ _ hmem => ?_⟩
        simp only [List.mem_singleton] at hmem
        subst hmem
        simp at hc
        exact hquote hc.symm
      · split
        · rename_i hhex
          cases cs with
          | nil => exact ⟨rfl, by simp⟩
          | cons d ds =>
              refine ⟨rfl, fun a ha hmem => ?_⟩
              simp only at ha
              split at ha
              · rename_i hhex'
                simp only [List.mem_cons, List.not_mem_nil, or_false] at hmem
                rcases hmem with rfl | rfl
                · simp [isUpperHex_newline] at hhex
                · simp [isUpperHex_newline] at hhex'
              · cases ha
        · exact ⟨rfl, by simp⟩

theorem readElement_splits {quote : Char} (hquote : quote ≠ '\n') (cs : List Char) :
    (readElement quote cs).Splits cs := by
  cases cs with
  | nil => exact ⟨rfl, by simp [readElement]⟩
  | cons c cs =>
      simp only [readElement]
      split
      · rename_i hc
        exact (readEscape_splits hquote cs).prepend (by rw [hc]; decide)
      · split
        · exact ⟨rfl, by simp⟩
        · rename_i hline
          split
          · exact ⟨rfl, fun _ _ hmem => hline (List.mem_singleton.mp hmem).symm⟩
          · exact ⟨rfl, by simp⟩

theorem readString_splits (cs : List Char) : (readString cs).Splits cs := by
  fun_induction readString cs with
  | case1 => exact ⟨rfl, by simp⟩
  | case2 cs => exact ⟨rfl, by simp⟩
  | case3 c cs hc element e he => exact readElement_splits (by decide) (c :: cs)
  | case4 c cs hc element he ih =>
      have hsplits : element.Splits (c :: cs) := readElement_splits (by decide) (c :: cs)
      have h := ih.prepend (hsplits.oneLine () he)
      rwa [hsplits.append_eq] at h

theorem readCharacter_splits (cs : List Char) : (readCharacter cs).Splits cs := by
  have hsplits := @readElement_splits '\'' (by decide) cs
  simp only [readCharacter]
  split
  · rename_i hhead
    refine ⟨?_, by simp⟩
    cases cs with
    | nil => simp at hhead
    | cons c cs =>
        simp only [List.head?_cons, Option.some.injEq] at hhead
        rw [hhead]
        rfl
  · split
    · exact hsplits
    · rename_i hok
      split
      · rename_i hrest
        exact ⟨by rw [← hrest]; exact hsplits.append_eq, by simp⟩
      · rename_i c rest hrest
        refine ⟨?_, fun a ha hmem => ?_⟩
        · simp only [List.append_assoc, List.singleton_append]
          rw [← hrest]
          exact hsplits.append_eq
        · simp only at ha
          split at ha
          · rename_i hc
            rcases List.mem_append.mp hmem with hmem | hmem
            · exact hsplits.oneLine () hok hmem
            · rw [hc] at hmem
              simp at hmem
          · cases ha

theorem Reading.Splits.map {α β : Type} {reading : Reading α} {cs : List Char} (f : α → β)
    (h : reading.Splits cs) :
    Reading.Splits ⟨reading.result.map f, reading.text, reading.rest⟩ cs where
  append_eq := h.append_eq
  oneLine a ha := by
    cases hr : reading.result with
    | error e => simp [hr, Except.map] at ha
    | ok b => exact h.oneLine b hr

theorem not_mem_takeWhile {p : Char → Bool} (hp : p '\n' = false) (cs : List Char) :
    '\n' ∉ cs.takeWhile p := by
  intro hmem
  have hall := List.all_eq_true.mp (List.all_takeWhile (l := cs) (p := p)) '\n' hmem
  rw [hp] at hall
  cases hall

theorem doubleSign?_newline (c : Char) : doubleSign? c '\n' = none := by
  rw [doubleSign?.eq_def]
  split <;> first | rfl | (rename_i h; exact absurd h (by decide))

theorem readSign_splits {c : Char} (hc : c ≠ '\n') (cs : List Char) :
    (readSign c cs).Splits (c :: cs) := by
  unfold readSign
  split
  · rename_i kind hkind
    cases cs with
    | nil => simp at hkind
    | cons d ds =>
        refine ⟨by simp, fun _ _ hmem => ?_⟩
        simp only [List.take_succ_cons, List.take_zero, List.mem_cons, List.not_mem_nil,
          or_false] at hmem
        rcases hmem with rfl | rfl
        · exact hc rfl
        · simp [doubleSign?_newline] at hkind
  · split
    · exact ⟨rfl, fun _ _ hmem => hc (List.mem_singleton.mp hmem).symm⟩
    · exact ⟨rfl, by simp⟩

theorem readLexeme_splits {c : Char} (hc : c ≠ '\n') (cs : List Char) :
    (readLexeme c cs).Splits (c :: cs) := by
  have hfront : '\n' ∉ [c] := fun hmem => hc (List.mem_singleton.mp hmem).symm
  unfold readLexeme
  split
  · exact ((readString_splits cs).prepend hfront).map _
  · split
    · exact ((readCharacter_splits cs).prepend hfront).map _
    · split
      · refine ⟨?_, fun _ _ hmem => ?_⟩
        · simp
        · rcases List.mem_cons.mp hmem with rfl | hmem
          · exact hc rfl
          · exact not_mem_takeWhile (by decide) cs hmem
      · split
        · refine ⟨?_, fun _ _ hmem => ?_⟩
          · simp
          · rcases List.mem_cons.mp hmem with rfl | hmem
            · exact hc rfl
            · exact not_mem_takeWhile (by decide) cs hmem
        · exact readSign_splits hc cs

/-! ## What tokens are made of -/

theorem singleSign?_ne_end {c : Char} {kind : TokenKind} (h : singleSign? c = some kind) :
    kind ≠ .endOfFile ∧ kind ≠ .identifier ∧ kind ≠ .character ∧ kind ≠ .string := by
  rw [singleSign?.eq_def] at h
  split at h <;> cases h <;> decide

theorem doubleSign?_ne_end {c d : Char} {kind : TokenKind} (h : doubleSign? c d = some kind) :
    kind ≠ .endOfFile ∧ kind ≠ .identifier ∧ kind ≠ .character ∧ kind ≠ .string := by
  rw [doubleSign?.eq_def] at h
  split at h <;> cases h <;> decide

theorem isName_ofList {cs : List Char} (h : ∀ c ∈ cs, isWordChar c = true) :
    IsName (String.ofList cs) := by
  intro c hc
  rw [String.toList_ofList] at hc
  have := h c hc
  simpa [isWordChar] using this

/-- Between the quotes of a character constant stands one character, escaped or not. -/
theorem length_unescape_readElement {cs : List Char} (hquote : cs.head? ≠ some '\'')
    (h : (readElement '\'' cs).result = .ok ()) :
    (unescape (readElement '\'' cs).text).length = 1 := by
  obtain ⟨code, hcode⟩ := elementCode_of_readElement hquote h
  have hone := hcode.unescape_append (.inr rfl) []
  rw [List.append_nil] at hone
  rw [hone]
  rfl

theorem length_constantChars_readCharacter {cs : List Char}
    (h : (readCharacter cs).result = .ok ()) :
    (constantChars ('\'' :: (readCharacter cs).text)).length = 1 := by
  simp only [readCharacter] at h ⊢
  split at h
  · cases h
  · rename_i hhead
    rw [if_neg hhead]
    cases hr : (readElement '\'' cs).result with
    | error e => simp [hr] at h
    | ok u =>
        simp only [hr] at h ⊢
        cases hrest : (readElement '\'' cs).rest with
        | nil => simp [hrest] at h
        | cons c rest =>
            simp only [constantChars, List.drop_succ_cons, List.drop_zero,
              List.dropLast_concat]
            exact length_unescape_readElement hhead hr

theorem wordKind_cases (word : List Char) :
    wordKind word = .identifier ∨ ∃ keyword, wordKind word = .keyword keyword := by
  unfold wordKind
  split
  · exact .inr ⟨_, rfl⟩
  · exact .inl rfl

theorem readSign_kind {c : Char} {cs : List Char} {kind : TokenKind}
    (h : (readSign c cs).result = .ok kind) :
    kind ≠ .endOfFile ∧ kind ≠ .identifier ∧ kind ≠ .character ∧ kind ≠ .string := by
  unfold readSign at h
  split at h
  · rename_i k hk
    cases h
    cases cs with
    | nil => simp at hk
    | cons d ds => exact doubleSign?_ne_end (by simpa using hk)
  · split at h
    · rename_i k hk
      cases h
      exact singleSign?_ne_end hk
    · cases h

theorem readLexeme_good {c : Char} {cs : List Char} {kind : TokenKind} (span : Span)
    (h : (readLexeme c cs).result = .ok kind) :
    Token.Good ⟨kind, span, (readLexeme c cs).text⟩ := by
  unfold readLexeme at h ⊢
  split at h
  · simp only [Reading.prepend] at h
    cases hr : (readString cs).result with
    | error e => simp [hr, Except.map] at h
    | ok u =>
        simp only [hr, Except.map, Except.ok.injEq] at h
        subst h
        exact ⟨by simp, by simp, by simp⟩
  · rename_i hc
    rw [if_neg hc]
    split at h
    · rename_i hc'
      rw [if_pos hc']
      simp only [Reading.prepend] at h
      cases hr : (readCharacter cs).result with
      | error e => simp [hr, Except.map] at h
      | ok u =>
          simp only [hr, Except.map, Except.ok.injEq] at h
          subst h
          subst hc'
          exact ⟨by simp, by simp, fun _ => length_constantChars_readCharacter hr⟩
    · rename_i hc'
      rw [if_neg hc']
      split at h
      · cases h
        exact ⟨by simp, by simp, by simp⟩
      · rename_i hdigit
        rw [if_neg hdigit]
        split at h
        · rename_i hword
          rw [if_pos hword]
          simp only [Except.ok.injEq] at h
          rw [← h]
          have hname : IsName (String.ofList (c :: cs.takeWhile isWordChar)) := by
            refine isName_ofList fun d hd => ?_
            rcases List.mem_cons.mp hd with rfl | hd
            · exact hword
            · exact List.all_eq_true.mp List.all_takeWhile d hd
          rcases wordKind_cases (c :: cs.takeWhile isWordChar) with hk | ⟨keyword, hk⟩
          · rw [hk]
            exact ⟨by simp, fun _ => hname, by simp⟩
          · rw [hk]
            exact ⟨by simp, by simp, by simp⟩
        · obtain ⟨h₁, h₂, h₃, -⟩ := readSign_kind h
          exact ⟨h₁, fun hk => absurd hk h₂, fun hk => absurd hk h₃⟩

theorem unskipped_false_head {cs : List Char} {c : Char} {rest : List Char} (comment : Bool)
    (h : unskipped comment cs = c :: rest) : c ≠ '\n' := by
  induction cs generalizing comment with
  | nil => cases comment <;> simp [unskipped] at h
  | cons d ds ih =>
      cases comment with
      | true => exact ih _ h
      | false =>
          simp only [unskipped] at h
          split at h
          · exact ih _ h
          · split at h
            · exact ih _ h
            · rename_i hblank _
              simp only [List.cons.injEq] at h
              rintro rfl
              rw [h.1] at hblank
              exact hblank (by decide)

/-- All tokens of a text are good. -/
theorem Cursor.scan_good (cursor : Cursor) :
    ∀ token, .ok token ∈ cursor.scan.items → token.Good := by
  induction cursor using Cursor.scan.induct with
  | case1 cursor h =>
      intro token hmem
      rw [Cursor.scan] at hmem
      split at hmem
      · simp at hmem
      · rename_i heq
        rw [h] at heq
        cases heq
  | case2 cursor c cs h found ih =>
      intro token hmem
      rw [Cursor.scan] at hmem
      split at hmem
      · simp at hmem
      · simp only [List.mem_cons] at hmem
        rcases hmem with hfound | hmem
        · unfold Cursor.next at hfound
          simp only [h] at hfound
          split at hfound
          · rename_i kind hkind
            cases hfound
            exact readLexeme_good _ hkind
          · cases hfound
        · exact ih token hmem

theorem Tokens.mem_ofItems {stop : Nat} {items : List (Except CompileError Token)} {token : Token}
    (h : token ∈ (ofItems stop items).list) : .ok token ∈ items := by
  induction items with
  | nil => simp [ofItems] at h
  | cons item items ih =>
      cases item with
      | error e => simp [ofItems] at h
      | ok t =>
          simp only [ofItems, List.mem_cons] at h
          rcases h with rfl | h
          · exact List.mem_cons_self
          · exact List.mem_cons_of_mem _ (ih h)

theorem Tokens.ofText_good (cs : List Char) : ∀ token ∈ (ofText cs).list, token.Good :=
  fun token h => Cursor.scan_good _ token (mem_ofItems h)

end NestedFun
