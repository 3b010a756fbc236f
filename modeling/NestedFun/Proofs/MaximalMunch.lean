import NestedFun.Proofs.TokenForms

namespace NestedFun

/-!
# Lexing by longest lexemes

A text falls into gaps and lexemes. Every token or error before the end of the file covers a lexeme
of its own, of at least one character, and what stands between two of them is blanks and comments.
Words and numbers are as long as they can be, and so are the signs that an equals sign can end.
-/

/-! ## What stands between lexemes -/

/-- Blanks, and comments with the line feeds that end them; at the end of the text the last comment
need not have one. -/
inductive Gap (atEnd : Bool) : List Char → Prop
  | nil : Gap atEnd []
  | blank {c : Char} {cs : List Char} (hc : c ∈ [' ', '\t', '\n', '\x0c', '\r'])
      (h : Gap atEnd cs) : Gap atEnd (c :: cs)
  | comment {body cs : List Char} (hbody : '\n' ∉ body) (h : Gap atEnd cs) :
      Gap atEnd ('#' :: (body ++ '\n' :: cs))
  | lastComment {body : List Char} (hend : atEnd = true) (hbody : '\n' ∉ body) :
      Gap atEnd ('#' :: body)

theorem isTokenBlank_iff (c : Char) :
    isTokenBlank c = true ↔ c ∈ [' ', '\t', '\n', '\x0c', '\r'] := by
  simp [isTokenBlank, or_assoc]

theorem Gap.lengthen {atEnd : Bool} {c : Char} {cs : List Char} (hc : c ≠ '\n')
    (h : Gap atEnd ('#' :: cs)) : Gap atEnd ('#' :: c :: cs) := by
  have hbody' {body : List Char} (hbody : '\n' ∉ body) : '\n' ∉ c :: body := by
    simpa using ⟨hc.symm, hbody⟩
  cases h with
  | blank hblank => exact absurd hblank (by decide)
  | comment hbody h => exact .comment (hbody' hbody) h
  | lastComment hend hbody => exact .lastComment hend (hbody' hbody)

theorem skipped_append_unskipped (comment : Bool) (cs : List Char) :
    skipped comment cs ++ unskipped comment cs = cs := by
  induction cs generalizing comment with
  | nil => cases comment <;> rfl
  | cons c cs ih =>
      cases comment with
      | true => exact congrArg (c :: ·) (ih _)
      | false =>
          simp only [skipped, unskipped]
          split
          · exact congrArg (c :: ·) (ih _)
          · split
            · exact congrArg (c :: ·) (ih _)
            · rfl

def commentSign (comment : Bool) : List Char := if comment then ['#'] else []

theorem gap_skipped (comment : Bool) (cs : List Char) :
    Gap (unskipped comment cs).isEmpty (commentSign comment ++ skipped comment cs) := by
  induction cs generalizing comment with
  | nil =>
      cases comment with
      | true => exact .lastComment rfl (List.not_mem_nil)
      | false => exact .nil
  | cons c cs ih =>
      cases comment with
      | true =>
          by_cases hc : c = '\n'
          · have hrest := ih false
            subst hc
            exact .comment List.not_mem_nil hrest
          · have hrest := ih true
            have hlong : Gap _ ('#' :: c :: skipped true cs) := Gap.lengthen hc hrest
            simpa [skipped, unskipped, commentSign, hc] using hlong
      | false =>
          simp only [skipped, unskipped]
          split
          · rename_i hblank
            exact .blank ((isTokenBlank_iff c).mp hblank) (ih false)
          · split
            · rename_i hc
              rw [hc]
              exact ih true
            · exact .nil

/-! ## Lexemes -/

/-- A text that is as long as possible among those of certain characters, with what follows it. -/
structure LongestRun (p : Char → Bool) (text rest : List Char) : Prop where
  inside : ∀ c ∈ text, p c = true
  stops : ∀ c, rest.head? = some c → p c = false

/-- The kinds of the signs that an equals sign can follow, without and with it. -/
def equalsSigns : Char → Option (TokenKind × TokenKind)
  | '=' => some (.equals, .equalsEquals)
  | '!' => some (.bang, .bangEquals)
  | '<' => some (.less, .lessEquals)
  | '>' => some (.greater, .greaterEquals)
  | _ => none

def TokenKind.IsWord (kind : TokenKind) : Prop :=
  kind = .identifier ∨ ∃ word, kind = .keyword word

def outcomeSpan : Except CompileError Token → Span
  | .ok token => token.span
  | .error error => error.span

def outcomeKind? : Except CompileError Token → Option TokenKind
  | .ok token => some token.kind
  | .error _ => none

structure Munched (text rest : List Char) (outcome : Except CompileError Token) : Prop where
  not_empty : text ≠ []
  lexeme : ∀ token, outcome = .ok token → token.lexeme = text ∧ token.kind ≠ .endOfFile
  word : (∃ kind, outcomeKind? outcome = some kind ∧ kind.IsWord) ↔
    ∃ c, text.head? = some c ∧ (c.isAlpha = true ∨ c = '_')
  word_run : ∀ kind, outcomeKind? outcome = some kind → kind.IsWord →
    LongestRun (fun c => c.isAlphanum || c = '_') text rest ∧
      ∀ word : Keyword, kind = .keyword word ↔ word.text.toList = text
  integer : outcomeKind? outcome = some .integer ↔ ∃ c, text.head? = some c ∧ c.isDigit = true
  integer_run : outcomeKind? outcome = some .integer → LongestRun Char.isDigit text rest
  sign : ∀ c single double, text.head? = some c → equalsSigns c = some (single, double) →
    if (text ++ rest)[1]? = some '=' then
      text = [c, '='] ∧ outcomeKind? outcome = some double
    else text = [c] ∧ outcomeKind? outcome = some single

theorem longestRun_takeWhile (p : Char → Bool) (cs : List Char) :
    LongestRun p (cs.takeWhile p) (cs.dropWhile p) where
  inside := List.all_eq_true.mp List.all_takeWhile
  stops c hc := by
    have := List.head?_dropWhile_not p cs
    rw [hc] at this
    simpa using this

theorem Keyword.ofText?_eq_some {s : String} {word : Keyword} :
    Keyword.ofText? s = some word ↔ word.text = s := by
  constructor
  · intro h
    simpa using List.find?_some h
  · rintro rfl
    cases word <;> decide

theorem wordKind_eq_keyword {text : List Char} {word : Keyword} :
    wordKind text = .keyword word ↔ word.text.toList = text := by
  have h : wordKind text = .keyword word ↔ Keyword.ofText? (String.ofList text) = some word := by
    rw [wordKind]
    cases Keyword.ofText? (String.ofList text) <;> simp
  rw [h, Keyword.ofText?_eq_some]
  constructor
  · intro h
    rw [h, String.toList_ofList]
  · rintro rfl
    rw [String.ofList_toList]

theorem wordKind_isWord (text : List Char) : (wordKind text).IsWord := wordKind_cases text

/-- What a reading has found in front of its rest, if its text has the given span. -/
def Reading.outcome (reading : Reading TokenKind) (span : Span) : Except CompileError Token :=
  match reading.result with
  | .ok kind => .ok ⟨kind, span, reading.text⟩
  | .error cause => .error ⟨span, .lexical cause⟩

theorem Reading.outcomeSpan_outcome (reading : Reading TokenKind) (span : Span) :
    outcomeSpan (reading.outcome span) = span := by
  rw [outcome]
  cases reading.result <;> rfl

theorem Reading.outcomeKind?_outcome (reading : Reading TokenKind) (span : Span) :
    outcomeKind? (reading.outcome span) = reading.result.toOption := by
  rw [outcome]
  cases reading.result <;> rfl

theorem Reading.outcome_ok {reading : Reading TokenKind} {span : Span} {token : Token}
    (h : reading.outcome span = .ok token) :
    reading.result = .ok token.kind ∧ token.lexeme = reading.text := by
  rw [outcome] at h
  cases hresult : reading.result with
  | error cause => simp [hresult] at h
  | ok kind =>
      simp only [hresult, Except.ok.injEq] at h
      rw [← h]
      exact ⟨rfl, rfl⟩

theorem isAlpha_of_isWordChar {c : Char} (h : isWordChar c = true) (hdigit : c.isDigit = false) :
    c.isAlpha = true ∨ c = '_' := by
  simpa [isWordChar, Char.isAlphanum, hdigit] using h

theorem isWordChar_of_isAlpha {c : Char} (h : c.isAlpha = true ∨ c = '_') : isWordChar c = true := by
  rcases h with h | rfl
  · simp [isWordChar, Char.isAlphanum, h]
  · rfl

theorem isDigit_eq_false_of_isAlpha {c : Char} (h : c.isAlpha = true ∨ c = '_') :
    c.isDigit = false := by
  rcases h with h | rfl
  · apply Bool.eq_false_iff.mpr
    intro hdigit
    have hle : c.toNat ≤ 57 := (Char.isDigit_iff_toNat.mp hdigit).2
    -- Letters start behind the digits, capital ones first.
    rcases Bool.or_eq_true_iff.mp (show (c.isUpper || c.isLower) = true from h) with hupper | hlower
    · have hge : 65 ≤ c.toNat := (of_decide_eq_true hupper).1
      omega
    · have hge : 97 ≤ c.toNat := of_decide_eq_true (Bool.and_eq_true_iff.mp hlower).1
      omega
  · rfl

theorem equalsSigns_of_isWordChar {c : Char} (h : isWordChar c = true) : equalsSigns c = none := by
  rw [equalsSigns.eq_def]
  split <;> first | rfl | exact absurd h (by decide)

/-- A word in its place. -/
theorem munched_word {c : Char} (cs : List Char) (span : Span) (hword : isWordChar c = true)
    (hdigit : c.isDigit = false) :
    Munched (c :: cs.takeWhile isWordChar) (cs.dropWhile isWordChar)
      (Reading.outcome ⟨.ok (wordKind (c :: cs.takeWhile isWordChar)), c :: cs.takeWhile isWordChar,
        cs.dropWhile isWordChar⟩ span) := by
  have hkind := wordKind_isWord (c :: cs.takeWhile isWordChar)
  have hrun := longestRun_takeWhile isWordChar cs
  have hinteger : wordKind (c :: cs.takeWhile isWordChar) ≠ .integer := by
    rcases hkind with h | ⟨word, h⟩ <;> rw [h] <;> simp
  refine ⟨List.cons_ne_nil _ _, ?_, ?_, ?_, ?_, ?_, ?_⟩
  · rintro token ⟨⟩
    refine ⟨rfl, ?_⟩
    rcases hkind with h | ⟨word, h⟩ <;> simp [h]
  · exact ⟨fun _ => ⟨c, rfl, isAlpha_of_isWordChar hword hdigit⟩, fun _ => ⟨_, rfl, hkind⟩⟩
  · rintro kind ⟨⟩ -
    refine ⟨⟨fun d hd => ?_, hrun.stops⟩, fun word => wordKind_eq_keyword⟩
    rcases List.mem_cons.mp hd with rfl | hd
    · exact hword
    · exact hrun.inside d hd
  · refine ⟨fun h => absurd (Option.some.inj h) hinteger, ?_⟩
    rintro ⟨d, ⟨⟩, hd⟩
    simp [hd] at hdigit
  · exact fun h => absurd (Option.some.inj h) hinteger
  · rintro d single double ⟨⟩ hd
    rw [equalsSigns_of_isWordChar hword] at hd
    cases hd

/-- A number in its place. -/
theorem munched_number {c : Char} (cs : List Char) (span : Span) (hdigit : c.isDigit = true) :
    Munched (c :: cs.takeWhile Char.isDigit) (cs.dropWhile Char.isDigit)
      (Reading.outcome ⟨.ok .integer, c :: cs.takeWhile Char.isDigit,
        cs.dropWhile Char.isDigit⟩ span) := by
  have hrun := longestRun_takeWhile Char.isDigit cs
  have hisWord : ¬ TokenKind.IsWord .integer := by
    rintro (h | ⟨word, h⟩) <;> cases h
  refine ⟨List.cons_ne_nil _ _, ?_, ?_, ?_, ?_, ?_, ?_⟩
  · rintro token ⟨⟩
    exact ⟨rfl, by simp⟩
  · constructor
    · rintro ⟨kind, ⟨⟩, h⟩
      exact absurd h hisWord
    · rintro ⟨d, ⟨⟩, hd⟩
      rw [isDigit_eq_false_of_isAlpha hd] at hdigit
      cases hdigit
  · rintro kind ⟨⟩ h
    exact absurd h hisWord
  · exact ⟨fun _ => ⟨c, rfl, hdigit⟩, fun _ => rfl⟩
  · refine fun _ => ⟨fun d hd => ?_, hrun.stops⟩
    rcases List.mem_cons.mp hd with rfl | hd
    · exact hdigit
    · exact hrun.inside d hd
  · rintro d single double ⟨⟩ hd
    have hword : isWordChar c = true := by simp [isWordChar, Char.isAlphanum, hdigit]
    rw [equalsSigns_of_isWordChar hword] at hd
    cases hd

/-- A lexeme that is neither a word nor a number. -/
theorem munched_other {reading : Reading TokenKind} {span : Span} {c : Char} {cs : List Char}
    (htext : reading.text = c :: cs) (hword : isWordChar c = false)
    (hkind : ∀ kind, reading.result = .ok kind →
      kind ≠ .endOfFile ∧ ¬ kind.IsWord ∧ kind ≠ .integer)
    (hsign : ∀ single double, equalsSigns c = some (single, double) →
      if (reading.text ++ reading.rest)[1]? = some '=' then
        reading.text = [c, '='] ∧ reading.result.toOption = some double
      else reading.text = [c] ∧ reading.result.toOption = some single) :
    Munched reading.text reading.rest (reading.outcome span) := by
  have hresult {kind : TokenKind} (h : outcomeKind? (reading.outcome span) = some kind) :
      reading.result = .ok kind := by
    rw [reading.outcomeKind?_outcome] at h
    cases hr : reading.result with
    | error cause => simp [hr, Except.toOption] at h
    | ok k => simpa [hr, Except.toOption] using h
  have hhead {d : Char} (h : reading.text.head? = some d) : d = c := by
    rw [htext] at h
    exact (Option.some.inj h).symm
  have hnoWord {d : Char} (hd : reading.text.head? = some d) : isWordChar d = false := by
    rw [hhead hd]
    exact hword
  refine ⟨by simp [htext], ?_, ?_, ?_, ?_, ?_, ?_⟩
  · intro token htoken
    obtain ⟨hok, hlexeme⟩ := Reading.outcome_ok htoken
    exact ⟨hlexeme, (hkind _ hok).1⟩
  · constructor
    · rintro ⟨kind, hk, h⟩
      exact absurd h (hkind kind (hresult hk)).2.1
    · rintro ⟨d, hd, h⟩
      have := hnoWord hd
      rw [isWordChar_of_isAlpha h] at this
      cases this
  · intro kind hk h
    exact absurd h (hkind kind (hresult hk)).2.1
  · constructor
    · intro h
      exact absurd rfl (hkind _ (hresult h)).2.2
    · rintro ⟨d, hd, h⟩
      have := hnoWord hd
      simp [isWordChar, Char.isAlphanum, h] at this
  · intro h
    exact absurd rfl (hkind _ (hresult h)).2.2
  · intro d single double hd hsigns
    obtain rfl := hhead hd
    rw [reading.outcomeKind?_outcome]
    exact hsign single double hsigns

theorem doubleSign?_of_equalsSigns {c : Char} {single double : TokenKind}
    (h : equalsSigns c = some (single, double)) (d : Char) :
    doubleSign? c d = if d = '=' then some double else none := by
  rw [equalsSigns.eq_def] at h
  split at h <;> cases h <;> by_cases hd : d = '=' <;> simp [doubleSign?, hd]

theorem singleSign?_of_equalsSigns {c : Char} {single double : TokenKind}
    (h : equalsSigns c = some (single, double)) : singleSign? c = some single := by
  rw [equalsSigns.eq_def] at h
  split at h <;> cases h <;> rfl

theorem singleSign?_other {c : Char} {kind : TokenKind} (h : singleSign? c = some kind) :
    kind ≠ .endOfFile ∧ ¬ kind.IsWord ∧ kind ≠ .integer := by
  rw [singleSign?.eq_def] at h
  split at h <;> cases h <;> simp [TokenKind.IsWord]

theorem doubleSign?_other {c d : Char} {kind : TokenKind} (h : doubleSign? c d = some kind) :
    kind ≠ .endOfFile ∧ ¬ kind.IsWord ∧ kind ≠ .integer := by
  rw [doubleSign?.eq_def] at h
  split at h <;> cases h <;> simp [TokenKind.IsWord]

theorem readSign_munched {c : Char} (cs : List Char) (span : Span) (hword : isWordChar c = false) :
    Munched (readSign c cs).text (readSign c cs).rest ((readSign c cs).outcome span) := by
  cases hdouble : cs.head?.bind (doubleSign? c) with
  | some kind =>
      obtain ⟨d, hd, hkind⟩ := Option.bind_eq_some_iff.mp hdouble
      obtain ⟨ds, rfl⟩ : ∃ ds, cs = d :: ds := by
        cases cs with
        | nil => cases hd
        | cons e ds => exact ⟨ds, by rw [Option.some.inj hd]⟩
      have hread : readSign c (d :: ds) = ⟨.ok kind, [c, d], ds⟩ := by
        rw [readSign, hdouble]
        rfl
      rw [hread]
      refine munched_other rfl hword ?_ ?_
      · rintro k ⟨⟩
        exact doubleSign?_other hkind
      · intro single double hsigns
        rw [doubleSign?_of_equalsSigns hsigns] at hkind
        split at hkind
        · rename_i heq
          cases hkind
          simp [heq, Except.toOption]
        · cases hkind
  | none =>
      have hnext {single double : TokenKind} (hsigns : equalsSigns c = some (single, double)) :
          cs.head? ≠ some '=' := by
        intro hhead
        rw [hhead, Option.bind_some, doubleSign?_of_equalsSigns hsigns] at hdouble
        cases hdouble
      cases hsingle : singleSign? c with
      | some kind =>
          have hread : readSign c cs = ⟨.ok kind, [c], cs⟩ := by
            rw [readSign, hdouble]
            simp only [hsingle]
          rw [hread]
          refine munched_other rfl hword ?_ ?_
          · rintro k ⟨⟩
            exact singleSign?_other hsingle
          · intro single double hsigns
            rw [singleSign?_of_equalsSigns hsigns] at hsingle
            cases hsingle
            have := hnext hsigns
            simpa [List.head?_eq_getElem?, Except.toOption] using this
      | none =>
          have hread : readSign c cs = ⟨.error (.unexpectedCharacter c), [c], cs⟩ := by
            rw [readSign, hdouble]
            simp only [hsingle]
          rw [hread]
          refine munched_other rfl hword ?_ ?_
          · rintro k ⟨⟩
          · intro single double hsigns
            rw [singleSign?_of_equalsSigns hsigns] at hsingle
            cases hsingle

/-- A constant in its place, or what is found instead of one. -/
theorem munched_constant {c : Char} {result : Except LexicalError Unit} {text rest : List Char}
    {kind : TokenKind} (span : Span) (hword : isWordChar c = false) (hsigns : equalsSigns c = none)
    (hkind : kind ≠ .endOfFile ∧ ¬ kind.IsWord ∧ kind ≠ .integer) :
    Munched (c :: text) rest
      (Reading.outcome ⟨result.map fun _ => kind, c :: text, rest⟩ span) := by
  let reading : Reading TokenKind := ⟨result.map fun _ => kind, c :: text, rest⟩
  refine @munched_other reading span c text rfl hword ?_ ?_
  · intro k hk
    cases result with
    | error cause => cases hk
    | ok u =>
        cases hk
        exact hkind
  · intro single double h
    rw [hsigns] at h
    cases h

/-- Every lexeme is as long as it has to be. -/
theorem readLexeme_munched (c : Char) (cs : List Char) (span : Span) :
    Munched (readLexeme c cs).text (readLexeme c cs).rest ((readLexeme c cs).outcome span) := by
  by_cases hstring : c = '"'
  · have hread : readLexeme c cs = ⟨((readString cs).prepend [c]).result.map fun _ => .string,
        c :: (readString cs).text, (readString cs).rest⟩ := by
      rw [readLexeme, if_pos hstring]
      rfl
    rw [hread, hstring]
    exact munched_constant _ (by decide) (by decide) (by simp [TokenKind.IsWord])
  by_cases hcharacter : c = '\''
  · have hread : readLexeme c cs = ⟨((readCharacter cs).prepend [c]).result.map fun _ => .character,
        c :: (readCharacter cs).text, (readCharacter cs).rest⟩ := by
      rw [readLexeme, if_neg hstring, if_pos hcharacter]
      rfl
    rw [hread, hcharacter]
    exact munched_constant _ (by decide) (by decide) (by simp [TokenKind.IsWord])
  by_cases hdigit : c.isDigit = true
  · have hread : readLexeme c cs = ⟨.ok .integer, c :: cs.takeWhile Char.isDigit,
        cs.dropWhile Char.isDigit⟩ := by
      rw [readLexeme, if_neg hstring, if_neg hcharacter, if_pos hdigit]
    rw [hread]
    exact munched_number cs span hdigit
  by_cases hword : isWordChar c = true
  · have hread : readLexeme c cs = ⟨.ok (wordKind (c :: cs.takeWhile isWordChar)),
        c :: cs.takeWhile isWordChar, cs.dropWhile isWordChar⟩ := by
      rw [readLexeme, if_neg hstring, if_neg hcharacter, if_neg hdigit, if_pos hword]
    rw [hread]
    exact munched_word cs span hword (by simpa using hdigit)
  · have hread : readLexeme c cs = readSign c cs := by
      rw [readLexeme, if_neg hstring, if_neg hcharacter, if_neg hdigit, if_neg hword]
    rw [hread]
    exact readSign_munched cs span (by simpa using hword)

/-! ## Whole texts -/

/-- The tokens and errors in characters that stand at a position: each covers a lexeme behind a gap,
and behind the last there is only a gap. -/
inductive Pieces : Nat → List Char → List (Except CompileError Token) → Prop
  | last {position : Nat} {gap : List Char} (hgap : Gap true gap) : Pieces position gap []
  | piece {position : Nat} {gap text rest : List Char} {outcome : Except CompileError Token}
      {outcomes : List (Except CompileError Token)} (hgap : Gap false gap)
      (hspan : outcomeSpan outcome = ⟨position + byteLength gap,
        position + byteLength gap + byteLength text⟩)
      (hmunched : Munched text rest outcome)
      (h : Pieces (position + byteLength gap + byteLength text) rest outcomes) :
      Pieces position (gap ++ (text ++ rest)) (outcome :: outcomes)

namespace Pieces

variable {position : Nat} {cs : List Char} {outcomes : List (Except CompileError Token)}

theorem length_le (h : Pieces position cs outcomes) : outcomes.length ≤ cs.length := by
  induction h with
  | last => exact Nat.zero_le _
  | @piece position gap text rest outcome outcomes hgap hspan hmunched h ih =>
      have hpos := List.length_pos_of_ne_nil hmunched.not_empty
      simp only [List.length_cons, List.length_append]
      omega

theorem start_le (h : Pieces position cs outcomes) :
    ∀ outcome ∈ outcomes, position ≤ (outcomeSpan outcome).start := by
  induction h with
  | last => exact fun _ hmem => absurd hmem List.not_mem_nil
  | piece hgap hspan hmunched h ih =>
      intro outcome hmem
      rcases List.mem_cons.mp hmem with rfl | hmem
      · rw [hspan]
        exact Nat.le_add_right _ _
      · have := ih outcome hmem
        omega

/-- Tokens and errors follow one another without overlap. -/
theorem ordered (h : Pieces position cs outcomes) :
    (outcomes.map outcomeSpan).Pairwise fun a b => a.stop ≤ b.start := by
  induction h with
  | last => exact .nil
  | piece hgap hspan hmunched h ih =>
      refine List.pairwise_cons.mpr ⟨fun span hmem => ?_, ih⟩
      obtain ⟨outcome, houtcome, rfl⟩ := List.mem_map.mp hmem
      rw [hspan]
      exact h.start_le outcome houtcome

/-- Every token and every error covers a part of the text that is not empty. -/
theorem covers (h : Pieces position cs outcomes) :
    ∀ outcome ∈ outcomes, ∃ before text rest, cs = before ++ (text ++ rest) ∧ text ≠ [] ∧
      outcomeSpan outcome = ⟨position + byteLength before,
        position + byteLength before + byteLength text⟩ := by
  induction h with
  | last => exact fun _ hmem => absurd hmem List.not_mem_nil
  | @piece position gap text rest outcome outcomes hgap hspan hmunched h ih =>
      intro other hmem
      rcases List.mem_cons.mp hmem with rfl | hmem
      · exact ⟨gap, text, rest, rfl, hmunched.not_empty, hspan⟩
      · obtain ⟨before, text', rest', hrest, hne, hspan'⟩ := ih other hmem
        refine ⟨gap ++ (text ++ before), text', rest', by simp [hrest], hne, ?_⟩
        simp only [hspan', byteLength_append, Nat.add_assoc]

end Pieces

theorem Cursor.next_eq {cursor : Cursor} {c : Char} {cs : List Char}
    (h : unskipped false cursor.rest = c :: cs) :
    cursor.next = ((readLexeme c cs).outcome
        ⟨cursor.position + byteLength (skipped false cursor.rest),
          cursor.position + byteLength (skipped false cursor.rest)
            + byteLength (readLexeme c cs).text⟩,
      ⟨cursor.position + byteLength (skipped false cursor.rest)
        + byteLength (readLexeme c cs).text, (readLexeme c cs).rest⟩) := by
  rw [Cursor.next]
  simp only [h, Reading.outcome]
  cases (readLexeme c cs).result <;> rfl

theorem Cursor.next_end {cursor : Cursor} (h : unskipped false cursor.rest = []) :
    cursor.next = (.ok (endToken (cursor.position + byteLength cursor.rest)),
      ⟨cursor.position + byteLength cursor.rest, []⟩) := by
  have hcut := skipped_append_unskipped false cursor.rest
  rw [h, List.append_nil] at hcut
  rw [Cursor.next]
  simp only [h, hcut]

theorem Cursor.scan_end {cursor : Cursor} (h : unskipped false cursor.rest = []) :
    cursor.scan = ⟨[], cursor.position + byteLength cursor.rest⟩ := by
  rw [Cursor.scan]
  split
  · rw [Cursor.next_end h]
  · rename_i heq
    rw [h] at heq
    cases heq

theorem Cursor.scan_step {cursor : Cursor} {c : Char} {cs : List Char}
    (h : unskipped false cursor.rest = c :: cs) :
    cursor.scan = ⟨cursor.next.1 :: cursor.next.2.scan.items, cursor.next.2.scan.stop⟩ := by
  rw [Cursor.scan]
  split
  · rename_i heq
    rw [h] at heq
    cases heq
  · rfl

/-- A text is its gap, the lexeme behind it, and the rest. -/
theorem Cursor.rest_eq {cursor : Cursor} {c : Char} {cs : List Char}
    (h : unskipped false cursor.rest = c :: cs) :
    cursor.rest = skipped false cursor.rest
      ++ ((readLexeme c cs).text ++ (readLexeme c cs).rest) := by
  have hsplits := readLexeme_splits (unskipped_false_head false h) cs
  rw [hsplits.append_eq, ← h, skipped_append_unskipped]

/-- The pieces that lexing finds from a place on. -/
theorem Cursor.pieces_scan (cursor : Cursor) :
    Pieces cursor.position cursor.rest cursor.scan.items := by
  induction cursor using Cursor.scan.induct with
  | case1 cursor h =>
      have hgap := gap_skipped false cursor.rest
      have hcut := skipped_append_unskipped false cursor.rest
      rw [h, List.append_nil] at hcut
      rw [h, hcut] at hgap
      rw [Cursor.scan_end h]
      exact .last hgap
  | case2 cursor c cs h found ih =>
      have hfound : found = cursor.next := rfl
      have hgap := gap_skipped false cursor.rest
      rw [h] at hgap
      rw [hfound, Cursor.next_eq h] at ih
      rw [Cursor.scan_step h, Cursor.rest_eq h, Cursor.next_eq h]
      refine .piece hgap ?_ (readLexeme_munched c cs _) ih
      rw [Reading.outcomeSpan_outcome]

theorem Cursor.scan_stop (cursor : Cursor) :
    cursor.scan.stop = cursor.position + byteLength cursor.rest := by
  induction cursor using Cursor.scan.induct with
  | case1 cursor h => rw [Cursor.scan_end h]
  | case2 cursor c cs h found ih =>
      have hfound : found = cursor.next := rfl
      rw [hfound, Cursor.next_eq h] at ih
      rw [Cursor.scan_step h, Cursor.rest_eq h, Cursor.next_eq h]
      simp only at ih ⊢
      rw [ih, byteLength_append, byteLength_append]
      omega

namespace Lexer

def afterCalls (lexer : Lexer) : Nat → Lexer
  | 0 => lexer
  | n + 1 => (lexer.afterCalls n).next.2

theorem peeked_afterCalls (cs : List Char) (n : Nat) : ((ofText cs).afterCalls n).peeked = none := by
  induction n with
  | zero => rfl
  | succ n ih =>
      rw [afterCalls, Lexer.next, ih]

theorem afterCalls_succ (lexer : Lexer) (n : Nat) :
    lexer.afterCalls (n + 1) = lexer.next.2.afterCalls n := by
  induction n with
  | zero => rfl
  | succ n ih => rw [afterCalls, ih, afterCalls]

theorem answers_afterCalls (lexer : Lexer) {m n : Nat} (h : n < m) :
    (lexer.answers (List.replicate m .next))[n]? = some (lexer.afterCalls n).next.1 := by
  induction m generalizing lexer n with
  | zero => exact absurd h (Nat.not_lt_zero n)
  | succ m ih =>
      rw [List.replicate_succ, answers]
      cases n with
      | zero => rfl
      | succ n =>
          rw [List.getElem?_cons_succ, afterCalls_succ]
          exact ih lexer.next.2 (Nat.lt_of_succ_lt_succ h)

/-- What a lexer answers when it is asked for the next token again and again. -/
theorem answers_next (n : Nat) (cursor : Cursor) :
    (Lexer.mk cursor none).answers (List.replicate n .next)
      = (cursor.scan.items ++ List.replicate n (Except.ok (endToken cursor.scan.stop))).take n := by
  induction n generalizing cursor with
  | zero => rfl
  | succ n ih =>
      have hlook : (Lexer.mk cursor none).look .next = (cursor.next.1, ⟨cursor.next.2, none⟩) := rfl
      rw [List.replicate_succ, answers, hlook, ih]
      cases h : unskipped false cursor.rest with
      | nil =>
          have hend : unskipped false (Cursor.mk (cursor.position + byteLength cursor.rest) []).rest
            = [] := rfl
          rw [Cursor.next_end h, Cursor.scan_end h, Cursor.scan_end hend]
          simp [List.replicate_succ]
      | cons c cs =>
          have hlong (e : Except CompileError Token) (items : List (Except CompileError Token)) :
              (items ++ List.replicate (n + 1) e).take n = (items ++ List.replicate n e).take n := by
            rw [List.replicate_succ', ← List.append_assoc,
              List.take_append_of_le_length (by simp)]
          rw [Cursor.scan_step h, List.cons_append, List.take_succ_cons, hlong]

/-- How asking for the next token again and again goes through a text: with as many answers before the
end of the file as the text has lexemes, each of which uses up characters. -/
structure Tokenizes (cs : List Char) (outcomes : List (Except CompileError Token)) : Prop where
  answers_eq : ∀ n, (ofText cs).answers (List.replicate n .next)
    = (outcomes ++ List.replicate n (Except.ok (endToken (byteLength cs)))).take n
  length_le : outcomes.length ≤ cs.length
  ends : ∀ n, cs.length ≤ n → ((ofText cs).afterCalls n).next.1 = .ok (endToken (byteLength cs))
  uses_up : ∀ n, (∀ token, ((ofText cs).afterCalls n).next.1 = .ok token → token.kind ≠ .endOfFile) →
    ((ofText cs).afterCalls (n + 1)).cursor.rest.length
      < ((ofText cs).afterCalls n).cursor.rest.length
  pieces : Pieces 0 cs outcomes
  covers : ∀ outcome ∈ outcomes, ∃ before text rest, cs = before ++ (text ++ rest) ∧ text ≠ [] ∧
    outcomeSpan outcome = ⟨byteLength before, byteLength before + byteLength text⟩
  ordered : (outcomes.map outcomeSpan).Pairwise fun a b => a.stop ≤ b.start

theorem answers_ofText (cs : List Char) (n : Nat) :
    (ofText cs).answers (List.replicate n .next) = ((Cursor.start cs).scan.items
      ++ List.replicate n (Except.ok (endToken (byteLength cs)))).take n := by
  have hstop : (Cursor.start cs).scan.stop = byteLength cs := by
    rw [Cursor.scan_stop]
    exact Nat.zero_add _
  rw [← hstop]
  exact answers_next n (.start cs)

/-- A call that does not come to the end of the file uses up characters. -/
theorem next_uses_up {lexer : Lexer} (hpeeked : lexer.peeked = none)
    (h : ∀ token, lexer.next.1 = .ok token → token.kind ≠ .endOfFile) :
    lexer.next.2.cursor.rest.length < lexer.cursor.rest.length := by
  have hnext : lexer.next = (lexer.cursor.next.1, ⟨lexer.cursor.next.2, none⟩) := by
    rw [Lexer.next, hpeeked]
  rw [hnext] at h ⊢
  refine lexer.cursor.next_rest_lt fun hend => ?_
  rw [Cursor.next_end hend] at h
  exact h _ rfl rfl

/-- Every text is lexed by longest lexemes, and every call before the end of the file gets further. -/
theorem tokenizes (cs : List Char) : ∃ outcomes, Tokenizes cs outcomes := by
  have hpieces := (Cursor.start cs).pieces_scan
  have hlength := hpieces.length_le
  refine ⟨(Cursor.start cs).scan.items, answers_ofText cs, hlength, fun n hn => ?_,
    fun n => next_uses_up (peeked_afterCalls cs n), hpieces, ?_, hpieces.ordered⟩
  · have hanswer := answers_afterCalls (ofText cs) (Nat.lt_succ_self n)
    have hle : (Cursor.start cs).scan.items.length ≤ n := hlength.trans hn
    rw [answers_ofText, List.getElem?_take_of_lt (Nat.lt_succ_self n),
      List.getElem?_append_right hle, List.getElem?_replicate, if_pos (by omega)] at hanswer
    exact (Option.some.inj hanswer).symm
  · simpa [Cursor.start] using hpieces.covers

end Lexer

end NestedFun
