import NestedFun.Proofs.ErrorPlaces
import NestedFun.Proofs.Executable
import NestedFun.Proofs.Insertions

namespace NestedFun

/-!
# Errors behind the text

The declarations of the system functions are tokens like others. An error is blamed on them if the text
in front of them is not finished, or if it defines a system function itself.
-/

/-! ## Unfinished texts -/

structure Begins (cs : List Char) (tokens : List Token) : Prop where
  ofText_eq : Tokens.ofText cs = ⟨tokens, .ok (endToken (byteLength cs))⟩
  fits : ∀ token ∈ tokens, token.Fits
  viable : Viable (tokens.map Token.kind)

theorem Begins.lineFeed {cs : List Char} {tokens : List Token} (h : Begins cs tokens) :
    Begins (cs ++ ['\n']) tokens := by
  have hnothing : Tokens.ofText [] = ⟨[], .ok (endToken (Cursor.start []).scan.stop)⟩ :=
    Tokens.ofText_of_items (Cursor.scan_nil rfl)
  rcases Tokens.ofText_persists [] ⟨_, congrArg Tokens.ending hnothing⟩ cs with
    ⟨_, e, _, hcs, -⟩ | ⟨tokens', back, hcs, hall, hback, -⟩
  · cases (congrArg Tokens.ending hcs).symm.trans (congrArg Tokens.ending h.ofText_eq)
  · rw [hnothing, List.map_nil] at hback
    obtain rfl := List.map_eq_nil_iff.mp hback
    obtain rfl : tokens' = tokens :=
      (congrArg Tokens.list hcs).symm.trans (congrArg Tokens.list h.ofText_eq)
    rw [List.append_nil] at hall
    exact ⟨hall, h.fits, h.viable⟩

/-- If it is no program, the error is at its end. -/
theorem Begins.parse_error {cs : List Char} {tokens : List Token} (hcs : Begins cs tokens)
    {e : CompileError} (h : Program.parse cs = .error e) : ∃ wanted,
      e = ⟨⟨byteLength cs, byteLength cs⟩, .syntactic (.expected wanted .endOfFile)⟩ := by
  have hitems : (Cursor.start cs).scan.items = tokens.map .ok := by
    have hlist := Tokens.ofItems_ok (congrArg Tokens.ending hcs.ofText_eq)
    rwa [show (Tokens.ofItems _ _).list = tokens from congrArg Tokens.list hcs.ofText_eq] at hlist
  have hstop : (Cursor.start cs).scan.stop = byteLength cs :=
    (Cursor.scan_stop _).trans (Nat.zero_add _)
  obtain ⟨front, next, back, wanted, htokens, hhalts, rfl⟩ := Program.halts_of_parse hitems hcs.fits h
  rcases List.eq_nil_or_concat' back with rfl | ⟨back, last, rfl⟩
  · obtain ⟨-, hnext⟩ := List.append_inj' htokens rfl
    obtain rfl := (List.cons.inj hnext).1
    rw [hstop]
    exact ⟨wanted, rfl⟩
  · -- The tokens go on behind the one that does not fit.
    have hsplit : tokens ++ [endToken (Cursor.start cs).scan.stop]
        = (front ++ [next] ++ back) ++ [last] := by simpa using htokens
    obtain ⟨rfl, -⟩ := List.append_inj' hsplit rfl
    refine absurd (hcs.viable.shorten ?_) hhalts.viable.2
    rw [List.map_append, List.map_append]
    exact List.prefix_append _ _

/-! ## Declarations -/

section

variable {lines : List Char} {names : List (String × Option String)}

/-- The first thing that lexing finds starts where nothing is skipped any more. -/
theorem Cursor.start_of_items {cursor : Cursor} {item : Except CompileError Token}
    {others : List (Except CompileError Token)} (h : cursor.scan.items = item :: others) :
    (outcomeSpan item).start = cursor.position + byteLength (skipped false cursor.rest) := by
  cases hnext : unskipped false cursor.rest with
  | nil =>
      rw [scan_end hnext] at h
      cases h
  | cons c ds =>
      rw [scan_step hnext] at h
      rw [← (List.cons.inj h).1, next_eq hnext, Reading.outcomeSpan_outcome]

theorem not_integer_of_declared {back : List Token}
    (h : back.map Token.form = names.flatMap declarationForms) :
    ∀ token ∈ back, token.kind ≠ .integer := by
  intro token htoken hinteger
  have hform : (token.kind, token.lexeme) ∈ names.flatMap declarationForms :=
    h ▸ List.mem_map_of_mem (f := Token.form) htoken
  obtain ⟨declared, -, hmem⟩ := List.mem_flatMap.mp hform
  rw [hinteger, declarationForms] at hmem
  simp at hmem

/-- Going along declarations one halts at the first word or not at all. -/
theorem halts_at_declarations {own front rest : List Token} {back : List Token} {next last : Token}
    (hback : back.map Token.form = names.flatMap declarationForms)
    (h : Halts programForm ((own ++ front).map Token.kind) next.kind)
    (hsplit : back ++ [last] = front ++ next :: rest) : front = [] ∨ next = last := by
  cases front with
  | nil => exact .inl rfl
  | cons word front =>
      refine .inr ?_
      rcases List.eq_nil_or_concat' rest with rfl | ⟨rest, other, rfl⟩
      · exact ((List.cons.inj (List.append_inj' hsplit rfl).2).1).symm
      · exfalso
        have hsplit' : back ++ [last] = (word :: front ++ [next] ++ rest) ++ [other] := by
          simpa using hsplit
        obtain ⟨rfl, -⟩ := List.append_inj' hsplit' rfl
        obtain ⟨hviable, hnot⟩ := h.viable
        have hword : word.kind = .keyword .kwFun := (Tokens.stops_of_declared hback 0).head word rfl
        -- The word `fun` fits, so all declarations do.
        have hfun : Viable (own.map Token.kind ++ [.keyword .kwFun]) := by
          refine hviable.shorten ⟨front.map Token.kind, ?_⟩
          rw [← hword]
          simp
        have hall := hfun.insert_declarations names
        rw [← hback, List.map_map] at hall
        refine hnot (hall.shorten ⟨rest.map Token.kind ++ [.keyword .kwFun], ?_⟩)
        simp [Function.comp_def, Token.form]

/-- Where a text is blamed that is no program with declarations behind it. -/
theorem Program.parse_blames (hlines : ∃ ending, (Tokens.ofText lines).ending = .ok ending)
    (hnames : (Tokens.ofText lines).list.map Token.form = names.flatMap declarationForms)
    {cs : List Char} {e : CompileError} (h : parse (cs ++ '\n' :: lines) = .error e) :
    e.span.start ≤ byteLength cs ∨ ∃ tokens wanted found, Begins cs tokens ∧
      e.cause = .syntactic (.expected wanted found) ∧
      (found = .keyword .kwFun ∧
          e.span.start = byteLength cs + 1 + byteLength (skipped false lines) ∨
        found = .endOfFile ∧ e.span.start = byteLength (cs ++ '\n' :: lines)) := by
  have hmarked : ∀ {span}, Marked cs span → span.start ≤ byteLength cs :=
    fun h => Nat.le_trans h.le.1 h.le.2
  rcases Tokens.ofText_persists lines hlines cs with
    ⟨tokens, e₁, e₂, hcs, hall, hstart⟩ | ⟨tokens, back, hcs, hall, hforms, hback⟩
  · have hown : ∀ token ∈ tokens, token.span.start ≤ byteLength cs :=
      fun token hmem => hmarked (Tokens.marked (congrArg Tokens.list hcs ▸ hmem))
    have hwhole : (Reader.ofText (cs ++ '\n' :: lines)).tokens = ⟨tokens, .error e₂⟩ := hall
    refine .inl ?_
    cases fails_of_parse h with
    | lexical hending =>
        rw [hwhole] at hending
        cases hending
        rw [hstart]
        exact hmarked (Tokens.marked_error (congrArg Tokens.ending hcs))
    | integer hmem hlarge =>
        rw [hwhole] at hmem
        exact hown _ hmem
    | halts wanted hupcoming hfits hhalts =>
        rw [Reader.upcoming, hwhole] at hupcoming
        refine hown _ ?_
        rw [show tokens = _ from (List.append_nil tokens).symm.trans hupcoming]
        exact List.mem_append_right _ List.mem_cons_self
  · have hown : ∀ token ∈ tokens, token.span.start ≤ byteLength cs :=
      fun token hmem => hmarked (Tokens.marked (congrArg Tokens.list hcs ▸ hmem))
    have hwhole : (Reader.ofText (cs ++ '\n' :: lines)).tokens
        = ⟨tokens ++ back, .ok (endToken (byteLength (cs ++ '\n' :: lines)))⟩ := hall
    rw [hnames] at hforms
    cases fails_of_parse h with
    | lexical hending =>
        rw [hwhole] at hending
        cases hending
    | integer hmem hlarge =>
        rw [hwhole] at hmem
        rcases List.mem_append.mp hmem with hmem | hmem
        · exact .inl (hown _ hmem)
        · exact absurd (Token.fits_of_kind (not_integer_of_declared hforms _ hmem)) hlarge
    | @halts front rest next wanted hupcoming hfits hhalts =>
        rw [Reader.upcoming, hwhole] at hupcoming
        have hbehind : ∀ front', front = tokens ++ front' →
            back ++ [endToken (byteLength (cs ++ '\n' :: lines))] = front' ++ next :: rest →
            ∃ tokens wanted' found, Begins cs tokens ∧
              (Reader.unexpected wanted next).cause = .syntactic (.expected wanted' found) ∧
              (found = .keyword .kwFun ∧
                  next.span.start = byteLength cs + 1 + byteLength (skipped false lines) ∨
                found = .endOfFile ∧ next.span.start = byteLength (cs ++ '\n' :: lines)) := by
          rintro front' rfl hsplit
          have hviable : Viable (tokens.map Token.kind) :=
            hhalts.viable.1.shorten ⟨front'.map Token.kind, by rw [List.map_append]⟩
          refine ⟨tokens, wanted, next.kind,
            ⟨hcs, fun token hmem => hfits token (List.mem_append_left _ hmem), hviable⟩, rfl, ?_⟩
          rcases halts_at_declarations hforms hhalts hsplit with rfl | rfl
          · cases back with
            | nil =>
                obtain rfl := (List.cons.inj hsplit).1
                exact .inr ⟨rfl, rfl⟩
            | cons word back =>
                obtain rfl := (List.cons.inj hsplit).1
                exact .inl ⟨(Tokens.stops_of_declared hforms 0).head word rfl,
                  Cursor.start_of_items hback⟩
          · exact .inr ⟨rfl, rfl⟩
        rw [List.append_assoc] at hupcoming
        rcases List.append_eq_append_iff.mp hupcoming with ⟨front', hfront, hsplit⟩ | ⟨tail, hfront, hsplit⟩
        · exact .inr (hbehind front' hfront hsplit)
        · cases tail with
          | nil =>
              refine .inr (hbehind [] ?_ hsplit.symm)
              rw [hfront, List.append_nil, List.append_nil]
          | cons token tail =>
              obtain ⟨rfl, -⟩ := List.cons.inj hsplit
              exact .inl (hown _ (hfront ▸ List.mem_append_right _ List.mem_cons_self))

end

/-! ## System functions -/

/-- If a text is read, scope errors are its own, or it defines a system function. -/
theorem Program.resolve_blames_declared {cs : List Char} {own declared : Program}
    (hown : parse cs = .ok own) (hdeclares : Declares declared systemNames) {e : CompileError}
    (h : resolve (own ++ declared) = .error e) :
    e.span.start ≤ byteLength cs ∨ ∃ d ∈ own, d.name.text ∈ systemNames.map Prod.fst ∧
      e.cause = .scope (.duplicateDefinition d.name.text) := by
  refine resolve_blames (P := fun e => e.span.start ≤ byteLength cs ∨ ∃ d ∈ own,
    d.name.text ∈ systemNames.map Prod.fst ∧ e.cause = .scope (.duplicateDefinition d.name.text))
    (fun span error hspan => .inl (Nat.le_trans hspan.le.1 hspan.le.2)) (spanned_of_parse hown)
    hdeclares (by decide) (by decide) (marked_nowhere cs) ?_ e h
  rintro d hd ⟨d', hd', hname⟩
  refine .inr ⟨d', hd', ?_, by rw [hname]; rfl⟩
  rw [hname, ← hdeclares.names_eq]
  exact List.mem_map_of_mem (f := fun d : Definition => d.name.text) hd

/-- The declarations stand on lines of their own behind a text that is the given one, but for a line feed
at its end. -/
theorem Source.exists_lines (source : Source) : ∃ cs,
    source.withSystemDeclarations.contents.toList = cs ++ '\n' :: systemDeclarations.toList ∧
      byteLength cs ≤ source.size ∧
      (∀ own, Program.parse source.contents.toList = .ok own ↔ Program.parse cs = .ok own) ∧
      ∀ tokens, Begins cs tokens → Begins source.contents.toList tokens := by
  obtain ⟨cs, hcontents, hwhole⟩ := source.toList_withSystemDeclarations
  have hsize : source.size = byteLength source.contents.toList :=
    String.utf8ByteSize_eq_byteLength source.contents
  refine ⟨cs, hwhole, ?_⟩
  rcases hcontents with h | h <;> rw [hsize, h]
  · exact ⟨Nat.le_refl _, fun _ => Iff.rfl, fun _ => id⟩
  · rw [byteLength_append]
    exact ⟨Nat.le_add_right _ _, parse_lineFeed cs, fun _ => Begins.lineFeed⟩

/-- An error of a text with the declarations behind it is in the text, or the text is not finished, or
it defines a system function. A text that is not finished has an error at its end if nothing is behind
it. -/
theorem analyze_blames_declarations (source : Source) (e : CompileError)
    (h : analyze source.withSystemDeclarations = .error e) :
    e.span.start ≤ source.size ∨
      (∃ wanted found wanted', e.cause = .syntactic (.expected wanted found) ∧
        (found = .keyword .kwFun ∧
            e.span.start + byteLength (unskipped false systemDeclarations.toList)
              = source.withSystemDeclarations.size ∨
          found = .endOfFile ∧ e.span.start = source.withSystemDeclarations.size) ∧
        analyze source = .error
          ⟨⟨source.size, source.size⟩, .syntactic (.expected wanted' .endOfFile)⟩) ∨
      ∃ own d, Program.parse source.contents.toList = .ok own ∧ d ∈ own ∧
        d.name.text ∈ systemNames.map Prod.fst ∧
        e.cause = .scope (.duplicateDefinition d.name.text) := by
  obtain ⟨cs, hwhole, hle, hread, hbegins⟩ := source.exists_lines
  obtain ⟨hkept, hback⟩ := Program.parse_append ending_systemDeclarations forms_systemDeclarations cs
  have hall := analyze_eq_error h
  rw [hwhole] at hall
  rcases hall with hparse | ⟨all, hparse, hresolve⟩
  · rcases Program.parse_blames ending_systemDeclarations forms_systemDeclarations hparse with
      hstart | ⟨tokens, wanted, found, htokens, hcause, hplace⟩
    · exact .inl (Nat.le_trans hstart hle)
    · refine .inr (.inl ⟨wanted, found, ?_⟩)
      have hsize : source.withSystemDeclarations.size
          = byteLength (cs ++ '\n' :: systemDeclarations.toList) := by
        rw [← hwhole]
        exact String.utf8ByteSize_eq_byteLength _
      cases hown : Program.parse source.contents.toList with
      | ok own =>
          obtain ⟨declared, hall, -⟩ := hkept own ((hread own).mp hown)
          cases hall.symm.trans hparse
      | error e' =>
          obtain ⟨wanted', rfl⟩ := (hbegins tokens htokens).parse_error hown
          have herror : analyze source = .error ⟨⟨source.size, source.size⟩,
              .syntactic (.expected wanted' .endOfFile)⟩ := by
            rw [analyze, hown, Source.size, String.utf8ByteSize_eq_byteLength]
            rfl
          refine ⟨wanted', hcause, hplace.imp ?_ ?_, herror⟩
          · rintro ⟨hfound, hstart⟩
            have hcut := congrArg byteLength
              (skipped_append_unskipped false systemDeclarations.toList)
            have hnewline : Char.utf8Size '\n' = 1 := by decide
            rw [byteLength_append] at hcut
            refine ⟨hfound, ?_⟩
            rw [hstart, hsize, byteLength_append, byteLength_cons, hnewline, ← hcut]
            omega
          · rintro ⟨hfound, hstart⟩
            exact ⟨hfound, by rw [hstart, hsize]⟩
  · obtain ⟨own, hown⟩ := hback all hparse
    obtain ⟨declared, hall, hdeclared⟩ := hkept own hown
    cases hall.symm.trans hparse
    rcases Program.resolve_blames_declared hown (.of_declared hdeclared) hresolve with
      hstart | ⟨d, hd, hname, hcause⟩
    · exact .inl (Nat.le_trans hstart hle)
    · exact .inr (.inr ⟨own, d, (hread own).mpr hown, hd, hname, hcause⟩)

def unfinishedSample : Spelled "fun main() =" := .literal _

theorem analyze_blames_declarations_sample : ∃ e,
    analyze (Source.mk "fun main() =" .memory).withSystemDeclarations = .error e ∧
      (e.span.start ≤ 12 ∨
        (∃ wanted found wanted', e.cause = .syntactic (.expected wanted found) ∧
          (found = .keyword .kwFun ∧
              e.span.start + byteLength (unskipped false systemDeclarations.toList)
                = (Source.mk "fun main() =" .memory).withSystemDeclarations.size ∨
            found = .endOfFile ∧
              e.span.start = (Source.mk "fun main() =" .memory).withSystemDeclarations.size) ∧
          analyze ⟨"fun main() =", .memory⟩ = .error
            ⟨⟨12, 12⟩, .syntactic (.expected wanted' .endOfFile)⟩) ∨
        ∃ own d, Program.parse "fun main() =".toList = .ok own ∧ d ∈ own ∧
          d.name.text ∈ systemNames.map Prod.fst ∧
          e.cause = .scope (.duplicateDefinition d.name.text)) := by
  have hchecks : (analyze (Source.mk "fun main() =" .memory).withSystemDeclarations).toOption.isNone
      = true := by
    rw [@analyze_spelled _ unfinishedSample.chars rfl (by decide)]
    decide +kernel
  cases h : analyze (Source.mk "fun main() =" .memory).withSystemDeclarations with
  | ok analysis =>
      rw [h] at hchecks
      cases hchecks
  | error e =>
      have hsize : Source.size ⟨"fun main() =", .memory⟩ = 12 := by decide
      have hblames := analyze_blames_declarations _ e h
      rw [hsize] at hblames
      exact ⟨e, rfl, hblames⟩

def redefinedSample : Spelled "fun main() = 0\nfun exit(code) = 0" := .literal _

/-- The declaration of the function is blamed, which is behind the text. -/
theorem analyze_blames_redefined : ∃ e,
    analyze (Source.mk "fun main() = 0\nfun exit(code) = 0" .memory).withSystemDeclarations = .error e ∧
      Source.size ⟨"fun main() = 0\nfun exit(code) = 0", .memory⟩ < e.span.start := by
  have hchecks : Except.casesOn (motive := fun _ => Bool)
      (analyze (Source.mk "fun main() = 0\nfun exit(code) = 0" .memory).withSystemDeclarations)
      (fun e => decide (33 < e.span.start)) (fun _ => false) = true := by
    rw [@analyze_spelled _ redefinedSample.chars rfl (by decide)]
    decide +kernel
  cases h : analyze (Source.mk "fun main() = 0\nfun exit(code) = 0" .memory).withSystemDeclarations with
  | ok analysis =>
      rw [h] at hchecks
      cases hchecks
  | error e =>
      rw [h] at hchecks
      have hsize : Source.size ⟨"fun main() = 0\nfun exit(code) = 0", .memory⟩ = 33 := by decide
      rw [hsize]
      exact ⟨e, rfl, of_decide_eq_true hchecks⟩

end NestedFun
