import NestedFun.Proofs.Lookahead
import NestedFun.Proofs.MaximalMunch

namespace NestedFun

/-!
# A text and the declarations behind it

The declarations of the system functions start on a line of their own. The lexer finds the tokens of
the text before it in the same places, or fails in both; so the parser reads the same definitions, and
then the declarations.
-/

/-! ## Lexemes at the end of a line -/

/-- A reading that is the same, or fails as well, when a line feed and more lines follow. -/
structure Reading.Persists {α : Type} (reading longer : Reading α) (lines : List Char) : Prop where
  ok : ∀ a, reading.result = .ok a → longer = ⟨.ok a, reading.text, reading.rest ++ '\n' :: lines⟩
  error : ∀ e, reading.result = .error e → ∃ e', longer.result = .error e'

namespace Reading.Persists

variable {α : Type} {reading longer : Reading α} {lines : List Char}

theorem of_ok {a : α} {text rest : List Char} :
    Persists ⟨.ok a, text, rest⟩ ⟨.ok a, text, rest ++ '\n' :: lines⟩ lines where
  ok := by
    intro b hb
    cases hb
    rfl
  error := nofun

theorem of_error {e e' : LexicalError} {text text' rest rest' : List Char} :
    Persists (α := α) ⟨.error e, text, rest⟩ ⟨.error e', text', rest'⟩ lines where
  ok := nofun
  error := fun _ _ => ⟨e', rfl⟩

theorem prepend (h : reading.Persists longer lines) (front : List Char) :
    (reading.prepend front).Persists (longer.prepend front) lines where
  ok a ha := by rw [h.ok a ha]; rfl
  error e he := h.error e he

theorem map {β : Type} (h : reading.Persists longer lines) (f : α → β) :
    Persists ⟨reading.result.map f, reading.text, reading.rest⟩
      ⟨longer.result.map f, longer.text, longer.rest⟩ lines where
  ok b hb := by
    cases hr : reading.result with
    | error e => simp [hr, Except.map] at hb
    | ok a =>
        rw [h.ok a hr]
        simp only [hr, Except.map, Except.ok.injEq] at hb ⊢
        rw [hb]
  error e he := by
    cases hr : reading.result with
    | ok a => simp [hr, Except.map] at he
    | error e =>
        obtain ⟨e', he'⟩ := h.error e hr
        exact ⟨e', by simp only [he', Except.map]⟩

end Reading.Persists

section

variable (lines : List Char)

theorem readEscape_persists {quote : Char} (hquote : quote = '"' ∨ quote = '\'') (cs : List Char) :
    (readEscape quote cs).Persists (readEscape quote (cs ++ '\n' :: lines)) lines := by
  cases cs with
  | nil =>
      simp only [List.nil_append, readEscape]
      rcases hquote with rfl | rfl <;> exact .of_error
  | cons c cs =>
      simp only [List.cons_append, readEscape]
      split
      · exact .of_ok
      · split
        · cases cs with
          | nil => exact .of_error
          | cons d ds =>
              simp only [List.cons_append]
              split
              · exact .of_ok
              · exact .of_error
        · exact .of_error

theorem readElement_persists {quote : Char} (hquote : quote = '"' ∨ quote = '\'')
    (cs : List Char) :
    (readElement quote cs).Persists (readElement quote (cs ++ '\n' :: lines)) lines := by
  cases cs with
  | nil => exact .of_error
  | cons c cs =>
      simp only [List.cons_append, readElement]
      split
      · exact (readEscape_persists lines hquote cs).prepend [c]
      · split
        · exact .of_error
        · split
          · exact .of_ok
          · exact .of_error

theorem readString_persists (cs : List Char) :
    (readString cs).Persists (readString (cs ++ '\n' :: lines)) lines := by
  fun_induction readString cs with
  | case1 =>
      rw [List.nil_append, readString]
      exact .of_error
  | case2 cs =>
      rw [List.cons_append, readString, if_pos rfl]
      exact .of_ok
  | case3 c cs hc element e he =>
      have helement := readElement_persists lines (.inl rfl) (c :: cs)
      obtain ⟨e', he'⟩ := helement.error e he
      rw [List.cons_append, readString, if_neg hc]
      simp only [← List.cons_append, he']
      exact helement
  | case4 c cs hc element he ih =>
      have helement := (readElement_persists lines (.inl rfl) (c :: cs)).ok () he
      rw [List.cons_append, readString, if_neg hc]
      simp only [← List.cons_append, helement]
      exact ih.prepend element.text

theorem readCharacter_persists (cs : List Char) :
    (readCharacter cs).Persists (readCharacter (cs ++ '\n' :: lines)) lines := by
  have helement := readElement_persists lines (.inr rfl) cs
  have hhead : (cs ++ '\n' :: lines).head? = some '\'' ↔ cs.head? = some '\'' := by
    cases cs with
    | nil => simp
    | cons c cs => simp
  simp only [readCharacter, hhead]
  split
  · exact .of_error
  · split
    · rename_i e he
      obtain ⟨e', he'⟩ := helement.error e he
      simp only [he']
      exact helement
    · rename_i hok
      simp only [helement.ok () hok]
      split
      · rename_i hrest
        rw [hrest]
        exact .of_error
      · rename_i c rest hrest
        rw [hrest]
        simp only [List.cons_append]
        split
        · exact .of_ok
        · exact .of_error

/-- A run of characters ends at a line feed. -/
theorem span_persists {p : Char → Bool} (hp : p '\n' = false) (cs : List Char) :
    (cs ++ '\n' :: lines).takeWhile p = cs.takeWhile p ∧
      (cs ++ '\n' :: lines).dropWhile p = cs.dropWhile p ++ '\n' :: lines := by
  induction cs with
  | nil => simp [hp]
  | cons c cs ih =>
      by_cases hc : p c = true
      · simp [hc, ih]
      · simp [hc]

theorem readSign_persists (c : Char) (cs : List Char) :
    (readSign c cs).Persists (readSign c (cs ++ '\n' :: lines)) lines := by
  cases cs with
  | nil =>
      simp only [readSign, List.nil_append, List.head?_nil, List.head?_cons, Option.bind_none,
        Option.bind_some, doubleSign?_newline]
      split
      · exact .of_ok
      · exact .of_error
  | cons d cs =>
      simp only [readSign, List.cons_append, List.head?_cons, Option.bind_some]
      split
      · exact .of_ok
      · split
        · exact .of_ok
        · exact .of_error

theorem readLexeme_persists (c : Char) (cs : List Char) :
    (readLexeme c cs).Persists (readLexeme c (cs ++ '\n' :: lines)) lines := by
  unfold readLexeme
  split
  · exact ((readString_persists lines cs).prepend [c]).map _
  · split
    · exact ((readCharacter_persists lines cs).prepend [c]).map _
    · split
      · obtain ⟨htake, hdrop⟩ := span_persists lines (p := Char.isDigit) (by decide) cs
        rw [htake, hdrop]
        exact .of_ok
      · split
        · obtain ⟨htake, hdrop⟩ := span_persists lines (p := isWordChar) (by decide) cs
          rw [htake, hdrop]
          exact .of_ok
        · exact readSign_persists lines c cs

/-! ## Tokens -/

def textForms (cs : List Char) : List (Option (TokenKind × List Char)) :=
  (Cursor.start cs).scan.items.map itemForm

theorem textForms_nil : textForms [] = [] := congrArg (List.map itemForm) (Cursor.scan_nil rfl)

theorem textForms_cons {cs ds text rest : List Char} {c : Char} {kind : TokenKind}
    (hu : unskipped false cs = c :: ds) (hread : readLexeme c ds = ⟨.ok kind, text, rest⟩) :
    textForms cs = some (kind, text) :: textForms rest := by
  have hscan := @Cursor.scan_cons (.start cs) c ds hu
  have hnext := @Cursor.next_eq (.start cs) c ds hu
  rw [textForms, hscan, List.map_cons, hnext, hread]
  exact congrArg (List.cons _) (Cursor.scan_forms le_rfl rfl)

/-- The tokens of a text whose forms are known. -/
theorem exists_tokens {items : List (Except CompileError Token)} {forms : List (TokenKind × List Char)}
    (h : items.map itemForm = forms.map some) :
    ∃ tokens : List Token, items = tokens.map .ok ∧ tokens.map Token.form = forms := by
  induction forms generalizing items with
  | nil => exact ⟨[], List.map_eq_nil_iff.mp h, rfl⟩
  | cons form forms ih =>
      obtain ⟨item, others, rfl, hitem, hothers⟩ := List.map_eq_cons_iff.mp h
      obtain ⟨tokens, rfl, rfl⟩ := ih hothers
      cases item with
      | error e => cases hitem
      | ok token =>
          cases hitem
          exact ⟨token :: tokens, rfl, rfl⟩

/-- What is skipped before a lexeme does not depend on what follows it. -/
theorem skipped_append (comment : Bool) (cs : List Char) (h : unskipped comment cs ≠ []) :
    skipped comment (cs ++ '\n' :: lines) = skipped comment cs := by
  induction cs generalizing comment with
  | nil => cases comment <;> exact absurd rfl h
  | cons c cs ih =>
      cases comment
      · simp only [unskipped] at h
        simp only [List.cons_append, skipped]
        split
        · rename_i hblank
          rw [if_pos hblank] at h
          rw [ih false h]
        · rename_i hblank
          rw [if_neg hblank] at h
          split
          · rename_i hcomment
            rw [if_pos hcomment] at h
            rw [ih true h]
          · rfl
      · exact congrArg (c :: ·) (ih _ h)

theorem Cursor.next_persists {cs : List Char} (n : Nat) (h : unskipped false cs ≠ []) :
    (∀ token cursor, (⟨n, cs⟩ : Cursor).next = (.ok token, cursor) →
      (⟨n, cs ++ '\n' :: lines⟩ : Cursor).next
        = (.ok token, ⟨cursor.position, cursor.rest ++ '\n' :: lines⟩)) ∧
    (∀ e cursor, (⟨n, cs⟩ : Cursor).next = (.error e, cursor) →
      ∃ e' cursor', (⟨n, cs ++ '\n' :: lines⟩ : Cursor).next = (.error e', cursor') ∧
        e'.span.start = e.span.start) := by
  have happend := unskipped_append false cs lines
  cases hu : unskipped false cs with
  | nil => exact absurd hu h
  | cons c cs' =>
      rw [hu] at happend
      have hlexeme := readLexeme_persists lines c cs'
      simp only [List.cons_append] at happend
      cases hr : (readLexeme c cs').result with
      | ok kind =>
          have hlonger := hlexeme.ok kind hr
          refine ⟨fun token cursor heq => ?_, fun e cursor heq => ?_⟩
          · simp only [next, hu, hr, Prod.mk.injEq, Except.ok.injEq] at heq
            simp only [next, happend, hlonger, skipped_append lines false cs h]
            rw [← heq.1, ← heq.2]
          · simp [next, hu, hr] at heq
      | error e =>
          obtain ⟨e', he'⟩ := hlexeme.error e hr
          refine ⟨fun token cursor heq => ?_, fun e cursor heq => ?_⟩
          · simp [next, hu, hr] at heq
          · simp only [next, hu, hr, Prod.mk.injEq, Except.error.injEq] at heq
            simp only [next, happend, he', skipped_append lines false cs h]
            refine ⟨_, _, rfl, ?_⟩
            rw [← heq.1]

/-- A lexeme leaves the end of the text where it is. -/
theorem Cursor.next_end_eq {cursor : Cursor} (h : unskipped false cursor.rest ≠ []) :
    cursor.next.2.position + byteLength cursor.next.2.rest
      = cursor.position + byteLength cursor.rest := by
  obtain ⟨c, cs, hu⟩ := List.exists_cons_of_ne_nil h
  have hrest := congrArg byteLength (rest_eq hu)
  rw [byteLength_append, byteLength_append] at hrest
  rw [next_eq hu, hrest]
  simp only [Nat.add_assoc]

/-- Behind a text in which nothing is left, lexing goes on where the lines start. -/
theorem Cursor.scan_lines {cs : List Char} (n : Nat) (h : unskipped false cs = []) :
    (⟨n, cs ++ '\n' :: lines⟩ : Cursor).scan.items
      = (⟨n + byteLength cs + 1, lines⟩ : Cursor).scan.items := by
  have happend : unskipped false (cs ++ '\n' :: lines) = unskipped false lines := by
    rw [unskipped_append, h]
  have hskipped : skipped false (cs ++ '\n' :: lines) = cs ++ '\n' :: skipped false lines := by
    have hcut := skipped_append_unskipped false (cs ++ '\n' :: lines)
    have hcut' := skipped_append_unskipped false lines
    rw [happend] at hcut
    refine List.append_cancel_right (?_ : _ ++ unskipped false lines = _)
    rw [hcut, List.append_assoc, List.cons_append, hcut']
  have hposition : n + byteLength (skipped false (cs ++ '\n' :: lines))
      = n + byteLength cs + 1 + byteLength (skipped false lines) := by
    have hsize : Char.utf8Size '\n' = 1 := by decide
    rw [hskipped, byteLength_append, byteLength_cons, hsize]
    omega
  cases hu : unskipped false lines with
  | nil => rw [scan_nil (happend.trans hu), scan_nil hu]
  | cons c ds =>
      have hnext : (⟨n, cs ++ '\n' :: lines⟩ : Cursor).next
          = (⟨n + byteLength cs + 1, lines⟩ : Cursor).next := by
        rw [next_eq (happend.trans hu), next_eq hu, hposition]
      rw [scan_cons (happend.trans hu), hnext]
      exact (@scan_cons ⟨n + byteLength cs + 1, lines⟩ c ds hu).symm

/-- The tokens of a text stand in front of those of the lines behind it. An error in the text stays one,
at the same place. -/
theorem Cursor.scan_persists (n : Nat) (cs : List Char) :
    (∀ tokens : List Token, (⟨n, cs⟩ : Cursor).scan.items = tokens.map .ok →
      (⟨n, cs ++ '\n' :: lines⟩ : Cursor).scan.items
        = tokens.map .ok ++ (⟨n + byteLength cs + 1, lines⟩ : Cursor).scan.items) ∧
    (∀ (tokens : List Token) e others,
      (⟨n, cs⟩ : Cursor).scan.items = tokens.map .ok ++ .error e :: others →
      ∃ e' others', (⟨n, cs ++ '\n' :: lines⟩ : Cursor).scan.items
        = tokens.map .ok ++ .error e' :: others' ∧ e'.span.start = e.span.start) := by
  have happend := unskipped_append false cs lines
  cases hu : unskipped false cs with
  | nil =>
      have hnil : (⟨n, cs⟩ : Cursor).scan.items = [] := scan_nil hu
      refine ⟨fun tokens htokens => ?_, fun tokens e others htokens => ?_⟩
      · rw [hnil] at htokens
        obtain rfl := List.map_eq_nil_iff.mp htokens.symm
        exact scan_lines lines n hu
      · rw [hnil] at htokens
        exact absurd (List.append_eq_nil_iff.mp htokens.symm).2 (List.cons_ne_nil _ _)
  | cons c cs' =>
      rw [hu] at happend
      have hscan := @scan_cons ⟨n, cs⟩ c cs' hu
      have hscan' := @scan_cons ⟨n, cs ++ '\n' :: lines⟩ _ _ happend
      have hne : unskipped false cs ≠ [] := hu ▸ List.cons_ne_nil _ _
      have hlt := next_rest_lt ⟨n, cs⟩ hne
      have hend := @next_end_eq ⟨n, cs⟩ hne
      obtain ⟨hok, herror⟩ := next_persists lines n hne
      cases hnext : (⟨n, cs⟩ : Cursor).next with
      | mk outcome cursor =>
          rw [hnext] at hscan hlt hend
          cases outcome with
          | error e =>
              obtain ⟨e', cursor', hnext', hstart⟩ := herror e cursor hnext
              rw [hnext'] at hscan'
              refine ⟨fun tokens htokens => ?_, fun tokens e₀ others htokens => ?_⟩
              · rw [hscan] at htokens
                obtain ⟨t, ts, -, ht, -⟩ := List.map_eq_cons_iff.mp htokens.symm
                cases ht
              · rw [hscan] at htokens
                cases tokens with
                | nil =>
                    cases htokens
                    exact ⟨e', _, hscan', hstart⟩
                | cons token tokens => cases htokens
          | ok token =>
              rw [hok token cursor hnext] at hscan'
              obtain ⟨ihTokens, ihError⟩ := scan_persists cursor.position cursor.rest
              rw [hend] at ihTokens
              refine ⟨fun tokens htokens => ?_, fun tokens e others htokens => ?_⟩
              · rw [hscan] at htokens
                obtain ⟨t, ts, rfl, ht, hts⟩ := List.map_eq_cons_iff.mp htokens.symm
                cases ht
                rw [hscan', ihTokens ts hts.symm]
                rfl
              · rw [hscan] at htokens
                cases tokens with
                | nil => cases htokens
                | cons t ts =>
                    obtain ⟨ht, hts⟩ := List.cons.inj htokens
                    cases ht
                    obtain ⟨e', others', hitems, hstart⟩ := ihError ts e others hts
                    exact ⟨e', others', by rw [hscan', hitems]; rfl, hstart⟩
termination_by cs.length
decreasing_by exact hlt

namespace Tokens

/-- The tokens of a text end where the text ends or in front of its first error. -/
theorem items_eq (stop : Nat) (items : List (Except CompileError Token)) :
    items = (ofItems stop items).list.map .ok ∧ (ofItems stop items).ending = .ok (endToken stop) ∨
      ∃ e others, items = (ofItems stop items).list.map .ok ++ .error e :: others ∧
        (ofItems stop items).ending = .error e := by
  induction items with
  | nil => exact .inl ⟨rfl, rfl⟩
  | cons item items ih =>
      cases item with
      | error e => exact .inr ⟨e, items, rfl, rfl⟩
      | ok token =>
          refine ih.imp ?_ ?_
          · rintro ⟨hitems, hending⟩
            exact ⟨congrArg (.ok token :: ·) hitems, hending⟩
          · rintro ⟨e, others, hitems, hending⟩
            exact ⟨e, others, congrArg (.ok token :: ·) hitems, hending⟩

theorem ofItems_map (stop : Nat) (tokens : List Token) :
    ofItems stop (tokens.map .ok) = ⟨tokens, .ok (endToken stop)⟩ := by
  induction tokens with
  | nil => rfl
  | cons token tokens ih => rw [List.map_cons, ofItems, ih]

theorem ofItems_error (stop : Nat) (tokens : List Token) (e : CompileError)
    (others : List (Except CompileError Token)) :
    ofItems stop (tokens.map .ok ++ .error e :: others) = ⟨tokens, .error e⟩ := by
  induction tokens with
  | nil => rfl
  | cons token tokens ih => rw [List.map_cons, List.cons_append, ofItems, ih]

/-- Either a text has an error with the lines behind it and without them, at the same place, or its
tokens stand in front of those of the lines. -/
theorem ofText_persists (hlines : ∃ ending, (ofText lines).ending = .ok ending) (cs : List Char) :
    (∃ tokens e e', ofText cs = ⟨tokens, .error e⟩ ∧
        ofText (cs ++ '\n' :: lines) = ⟨tokens, .error e'⟩ ∧ e'.span.start = e.span.start) ∨
      ∃ tokens back, ofText cs = ⟨tokens, .ok (endToken (byteLength cs))⟩ ∧
        ofText (cs ++ '\n' :: lines)
          = ⟨tokens ++ back, .ok (endToken (byteLength (cs ++ '\n' :: lines)))⟩ ∧
        back.map Token.form = (ofText lines).list.map Token.form ∧
        (⟨byteLength cs + 1, lines⟩ : Cursor).scan.items = back.map .ok := by
  have hstop : ∀ cs : List Char, (Cursor.start cs).scan.stop = byteLength cs := fun cs =>
    (Cursor.scan_stop (.start cs)).trans (Nat.zero_add _)
  obtain ⟨hTokens, hError⟩ := Cursor.scan_persists lines 0 cs
  rw [Nat.zero_add] at hTokens
  rcases items_eq (Cursor.start cs).scan.stop (Cursor.start cs).scan.items with
    ⟨hitems, hending⟩ | ⟨e, others, hitems, hending⟩
  · refine .inr ?_
    obtain ⟨ending, hending'⟩ := hlines
    have hall := hTokens _ hitems
    -- The lines have the same tokens wherever they start.
    have hforms := @Cursor.scan_forms _ ⟨byteLength cs + 1, lines⟩ (.start lines) le_rfl rfl
    rw [ofItems_ok hending', map_form_of_items] at hforms
    obtain ⟨back, hback⟩ : ∃ back : List Token,
        (⟨byteLength cs + 1, lines⟩ : Cursor).scan.items = back.map .ok := by
      rcases items_eq 0 (⟨byteLength cs + 1, lines⟩ : Cursor).scan.items with
        ⟨hback, -⟩ | ⟨e, others, hback, -⟩
      · exact ⟨_, hback⟩
      · -- an error among the items has no form
        have hmem : .error e ∈ (⟨byteLength cs + 1, lines⟩ : Cursor).scan.items := by
          rw [hback]
          exact List.mem_append_right _ List.mem_cons_self
        have hnone := List.mem_map_of_mem (f := itemForm) hmem
        rw [hforms] at hnone
        obtain ⟨form, -, hform⟩ := List.mem_map.mp hnone
        cases hform
    have hwhole : ofText (cs ++ '\n' :: lines)
        = ⟨(ofText cs).list ++ back, .ok (endToken (Cursor.start (cs ++ '\n' :: lines)).scan.stop)⟩ := by
      rw [hback, ← List.map_append] at hall
      exact (congrArg (ofItems _) hall).trans (ofItems_map _ _)
    rw [hback, map_form_of_items] at hforms
    have hown : ofText cs = ⟨(ofText cs).list, .ok (endToken (Cursor.start cs).scan.stop)⟩ :=
      congrArg (Tokens.mk _) hending
    rw [hstop] at hown hwhole
    exact ⟨(ofText cs).list, back, hown, hwhole,
      List.map_injective_iff.mpr (Option.some_injective _) hforms, hback⟩
  · obtain ⟨e', others', hitems', hstart⟩ := hError _ e others hitems
    exact .inl ⟨(ofText cs).list, e, e', congrArg (Tokens.mk _) hending,
      (congrArg (ofItems _) hitems').trans (ofItems_error _ _ _ _), hstart⟩

end Tokens

end

/-! ## Definitions -/

/-- The parser stops at declarations. -/
theorem Tokens.stops_of_declared {names : List (String × Option String)} {taken : List Token}
    (h : taken.map Token.form = names.flatMap declarationForms) (stop : Nat) :
    Tokens.Stops ⟨taken, .ok (endToken stop)⟩ where
  head token htoken := by
    obtain ⟨rest, rfl⟩ := List.head?_eq_some_iff.mp htoken
    cases names with
    | nil => cases h
    | cons declared others => exact congrArg Prod.fst (List.cons.inj h).1
  noIn token htoken hin := by
    have hform : (token.kind, token.lexeme) ∈ names.flatMap declarationForms :=
      h ▸ List.mem_map_of_mem (f := Token.form) htoken
    obtain ⟨declared, -, hmem⟩ := List.mem_flatMap.mp hform
    rw [hin, declarationForms] at hmem
    simp at hmem
  ending := ⟨endToken stop, rfl, rfl⟩

/-- A text is read if and only if it is read with declarations behind it. Then its definitions are the
same, and the declarations follow them. -/
theorem Program.parse_append {lines : List Char} {names : List (String × Option String)}
    (hlines : ∃ ending, (Tokens.ofText lines).ending = .ok ending)
    (hnames : (Tokens.ofText lines).list.map Token.form = names.flatMap declarationForms)
    (cs : List Char) :
    (∀ own, parse cs = .ok own → ∃ declared, parse (cs ++ '\n' :: lines) = .ok (own ++ declared) ∧
      declared.map Definition.declared? = names.map fun name => some (name.1, name.2.toList)) ∧
    (∀ all, parse (cs ++ '\n' :: lines) = .ok all → ∃ own, parse cs = .ok own) := by
  have hgood := Tokens.ofText_good cs
  have hgood' := Tokens.ofText_good (cs ++ '\n' :: lines)
  rcases Tokens.ofText_persists lines hlines cs with
    ⟨tokens, e, e', hcs, hall, -⟩ | ⟨tokens, back, hcs, hall, hback, -⟩
  · -- reading definitions ends at the end of a text without errors only
    refine ⟨fun own h => ?_, fun all h => ?_⟩
    · obtain ⟨⟨ds, r'⟩, hds, -⟩ := bind_eq_ok h
      obtain ⟨token, hending, -⟩ := Reader.definitions_end _ _ _ hgood hds
      cases hending.symm.trans (congrArg Tokens.ending hcs)
    · obtain ⟨⟨ds, r'⟩, hds, -⟩ := bind_eq_ok h
      obtain ⟨token, hending, -⟩ := Reader.definitions_end _ _ _ hgood' hds
      cases hending.symm.trans (congrArg Tokens.ending hall)
  · rw [hnames] at hback
    generalize byteLength cs = stop at hcs
    generalize byteLength (cs ++ '\n' :: lines) = stop' at hall
    have hS : Tokens.Stops ⟨[], .ok (endToken stop)⟩ := ⟨nofun, nofun, _, rfl, rfl⟩
    have hS' : Tokens.Stops ⟨back, .ok (endToken stop')⟩ := Tokens.stops_of_declared hback stop'
    have hempty : ∀ n, Reader.definitions ⟨⟨[], .ok (endToken stop)⟩, n⟩
        = .ok ([], ⟨⟨[], .ok (endToken stop)⟩, n⟩) := by
      intro n
      rw [Reader.definitions]
      rfl
    have halike : Reader.Alike ⟨[], .ok (endToken stop)⟩ ⟨back, .ok (endToken stop')⟩
        (.ofText cs) (.ofText (cs ++ '\n' :: lines)) :=
      ⟨⟨tokens, by rw [List.append_nil]; exact hcs, hall⟩, rfl⟩
    refine ⟨fun own h => ?_, fun all h => ?_⟩
    · obtain ⟨⟨ds, r'⟩, hds, h⟩ := bind_eq_ok h
      cases h
      obtain ⟨ds, rest, n, rfl, hrest, hgoes⟩ :=
        Reader.definitions_carry hS hS' _ _ _ _ halike hgood hds
      cases hrest.symm.trans (hempty n)
      obtain ⟨declared, r', hdeclared, hsame⟩ := Reader.definitions_declared names back _ n
        ⟨endToken stop', rfl, rfl⟩ hback
      refine ⟨declared, ?_, hsame⟩
      rw [List.append_nil]
      exact bind_of_ok (hgoes declared r' hdeclared)
    · obtain ⟨⟨ds, r'⟩, hds, h⟩ := bind_eq_ok h
      obtain ⟨own, rest, n, rfl, hrest, hgoes⟩ :=
        Reader.definitions_carry hS' hS _ _ _ _ halike.symm hgood' hds
      exact ⟨own ++ [], bind_of_ok (hgoes [] _ (hempty n))⟩

namespace Source

/-- A line feed at the end of a text changes nothing. -/
theorem parse_lineFeed (cs : List Char) (own : Program) :
    Program.parse (cs ++ ['\n']) = .ok own ↔ Program.parse cs = .ok own := by
  have hitems : (Cursor.start []).scan.items = [] := Cursor.scan_nil rfl
  have htokens : Tokens.ofText [] = ⟨[], .ok (endToken (Cursor.start []).scan.stop)⟩ := by
    rw [Tokens.ofText, hitems]
    rfl
  have hforms : (Tokens.ofText []).list.map Token.form = ([] : List _).flatMap declarationForms := by
    rw [htokens]
    rfl
  obtain ⟨hkept, hread⟩ := Program.parse_append ⟨_, congrArg Tokens.ending htokens⟩ hforms cs
  have hsame : ∀ own, Program.parse cs = .ok own → Program.parse (cs ++ ['\n']) = .ok own := by
    intro own h
    obtain ⟨declared, hall, hdeclared⟩ := hkept own h
    obtain rfl := List.map_eq_nil_iff.mp hdeclared
    rwa [List.append_nil] at hall
  refine ⟨fun h => ?_, hsame own⟩
  obtain ⟨own', h'⟩ := hread own h
  cases h.symm.trans (hsame own' h')
  exact h'

/-- A text is read if and only if it is read with the declarations of the system functions behind it.
Then its definitions are the same, numbers and places included, and the declarations follow them. -/
theorem declarations_transparent (source : Source) :
    ((∃ own, Program.parse source.contents.toList = .ok own) ↔
      ∃ all, Program.parse source.withSystemDeclarations.contents.toList = .ok all) ∧
    ∀ own, Program.parse source.contents.toList = .ok own →
      ∃ declared, Program.parse source.withSystemDeclarations.contents.toList
          = .ok (own ++ declared) ∧
        declared.map Definition.declared? = systemNames.map fun name =>
          some (name.1, name.2.toList) := by
  obtain ⟨cs, hcontents, hall⟩ := source.toList_withSystemDeclarations
  have hown : ∀ own, Program.parse source.contents.toList = .ok own ↔
      Program.parse cs = .ok own := by
    intro own
    rcases hcontents with h | h
    · rw [h]
    · rw [h, parse_lineFeed]
  obtain ⟨hkept, hread⟩ :=
    Program.parse_append ending_systemDeclarations forms_systemDeclarations cs
  rw [hall]
  refine ⟨⟨?_, ?_⟩, fun own h => hkept own ((hown own).mp h)⟩
  · rintro ⟨own, h⟩
    obtain ⟨declared, h', -⟩ := hkept own ((hown own).mp h)
    exact ⟨_, h'⟩
  · rintro ⟨all, h⟩
    obtain ⟨own, h'⟩ := hread all h
    exact ⟨own, (hown own).mpr h'⟩

/-- A text that ends in a comment, with no line feed. -/
theorem declarations_transparent_sample : ∃ own declared,
    Program.parse "fun f(x) = x fun main() = f(1) # done".toList = .ok own ∧ own.length = 2 ∧
      Program.parse (Source.mk "fun f(x) = x fun main() = f(1) # done"
        .memory).withSystemDeclarations.contents.toList = .ok (own ++ declared) ∧
      declared.map Definition.declared? = systemNames.map fun name =>
        some (name.1, name.2.toList) := by
  have hchecks : ((Program.parse "fun f(x) = x fun main() = f(1) # done".toList).toOption.any
      fun own => own.length = 2) = true := by
    decide +kernel
  obtain ⟨own, hown, hlength⟩ := (Option.any_eq_true _ _).mp hchecks
  have hparse := toOption_eq_some hown
  obtain ⟨declared, hall, hdeclared⟩ :=
    (declarations_transparent ⟨"fun f(x) = x fun main() = f(1) # done", .memory⟩).2 own hparse
  exact ⟨own, declared, hparse, of_decide_eq_true hlength, hall, hdeclared⟩

end Source

end NestedFun
