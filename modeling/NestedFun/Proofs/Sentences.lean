import NestedFun.Proofs.OwnDefinitions
import NestedFun.Proofs.ParsedPhrases

namespace NestedFun

/-!
# Sentences

A text is a program if its tokens can be derived from the grammar, and the derivation tells the tree.
-/

/-- A text spells a derivation: it has its tokens and no others, and no integer is too large. -/
structure Spells (cs : List Char) (d : Derivation [.phrase .definitions]) : Prop where
  items_eq : (Cursor.start cs).scan.items = d.tokens.map .ok
  fits : ∀ token ∈ d.tokens, token.Fits

namespace Tokens

theorem ofText_of_items {cs : List Char} {tokens : List Token}
    (h : (Cursor.start cs).scan.items = tokens.map .ok) :
    ofText cs = ⟨tokens, .ok (endToken (Cursor.start cs).scan.stop)⟩ := by
  rw [ofText, h, ofItems_map]

theorem ofText_ending_kind {cs : List Char} {token : Token} (h : (ofText cs).ending = .ok token) :
    token.kind = .endOfFile := by
  have hitems := ofItems_ok h
  rw [ofText, hitems, ofItems_map] at h
  exact congrArg Token.kind (Except.ok.inj h).symm

end Tokens

namespace Derivation

def closed (d : Derivation [.phrase .definitions]) (stop : Nat) : Derivation programForm :=
  d.append (.token (endToken stop) rfl .nil)

theorem tokens_closed (d : Derivation [.phrase .definitions]) (stop : Nat) :
    (d.closed stop).tokens = d.tokens ++ [endToken stop] :=
  tokens_append d _

/-- Tokens have one derivation at most. -/
theorem definitions_unique {d d' : Derivation [.phrase .definitions]} (h : d.tokens = d'.tokens) :
    d = d' := by
  have hguided : ∀ d : Derivation [.phrase .definitions], d.Guided .endOfFile :=
    fun d => d.guided (by decide) .endOfFile (by decide)
  have hkinds : d.kinds ++ [.endOfFile] = d'.kinds ++ [.endOfFile] := by rw [kinds, kinds, h]
  exact ((hguided d).unique (hguided d') hkinds).2 h

end Derivation

namespace Reader

theorem ends_ofText (cs : List Char) : (ofText cs).Ends := fun _ h => Tokens.ofText_ending_kind h

/-- Behind the definitions of a program the file ends. -/
theorem definitions_peek (r : Reader) : ∀ ds r', definitions r = .ok (ds, r') →
    ∃ token, r'.peek = .ok token ∧ token.kind = .endOfFile := by
  induction r using definitions.induct with
  | case1 r ih =>
      intro ds r' h
      cases definitions_read h with
      | last hpeek hend => exact ⟨_, hpeek, hend⟩
      | @more _ others r₁ _ _ hothers => exact ih r₁.1 r₁.2 others r' hothers

end Reader

namespace Program

/-- A program that is read is the value of a derivation that its text spells. -/
theorem spells_of_parse {cs : List Char} {program : Program} (h : parse cs = .ok program) :
    ∃ d, Spells cs d ∧ program.unnumbered = d.values.1 := by
  obtain ⟨⟨ds, r'⟩, hdefinitions, h⟩ := bind_eq_ok h
  cases h
  have hderives := (Reader.definitions_derives (Reader.ofText cs) (Reader.ends_ofText cs)).1 program
    ⟨r', trivial⟩ (by rw [Reader.definitionsOf, hdefinitions]; rfl)
  obtain ⟨d, ⟨hlist, hending, -, hfits⟩, hvalue⟩ := hderives
  obtain ⟨token, hpeek, hkind⟩ := Reader.definitions_peek _ _ _ hdefinitions
  -- No token is left, since none of a text is the end of the file.
  have hnil : r'.tokens.list = [] ∧ r'.tokens.ending = .ok token := by
    cases hlist' : r'.tokens.list with
    | nil => exact ⟨rfl, by simpa only [Reader.peek, hlist'] using hpeek⟩
    | cons t rest =>
        simp only [Reader.peek, hlist', Except.ok.injEq] at hpeek
        have hmem : t ∈ (Tokens.ofText cs).list := by
          have hall : (Tokens.ofText cs).list = d.tokens ++ r'.tokens.list := hlist
          rw [hall, hlist']
          exact List.mem_append_right _ List.mem_cons_self
        exact absurd (hpeek ▸ hkind) (Tokens.ofText_good cs t hmem).notEnd
  have hitems := Tokens.ofItems_ok (hending.symm.trans hnil.2)
  have htokens : (Tokens.ofText cs).list = d.tokens := by
    rw [← List.append_nil d.tokens, ← hnil.1]
    exact hlist
  refine ⟨d, ⟨?_, hfits⟩, hvalue.symm⟩
  rw [← htokens]
  exact hitems

theorem fails_of_parse {cs : List Char} {e : CompileError} (h : parse cs = .error e) :
    (Reader.ofText cs).Fails programForm e := by
  refine (Reader.definitions_derives (Reader.ofText cs) (Reader.ends_ofText cs)).2 e ?_
  rw [parse] at h
  rw [Reader.definitionsOf]
  cases hdefinitions : (Reader.ofText cs).definitions with
  | error e' =>
      rw [hdefinitions] at h
      cases h
      rfl
  | ok found =>
      rw [hdefinitions] at h
      cases h

/-- A text without lexical errors and too large integers that is no program halts at some token. -/
theorem halts_of_parse {cs : List Char} {tokens : List Token} {e : CompileError}
    (hitems : (Cursor.start cs).scan.items = tokens.map .ok) (hfits : ∀ token ∈ tokens, token.Fits)
    (h : parse cs = .error e) : ∃ front next back wanted,
      tokens ++ [endToken (Cursor.start cs).scan.stop] = front ++ next :: back ∧
        Halts programForm (front.map Token.kind) next.kind ∧ e = Reader.unexpected wanted next := by
  have htokens : (Reader.ofText cs).tokens = ⟨tokens, .ok (endToken (Cursor.start cs).scan.stop)⟩ :=
    Tokens.ofText_of_items hitems
  cases fails_of_parse h with
  | lexical hending =>
      rw [htokens] at hending
      cases hending
  | @integer token hmem hlarge =>
      rw [htokens] at hmem
      exact absurd (hfits token hmem) hlarge
  | @halts front back next wanted hupcoming _ hhalts =>
      rw [Reader.upcoming, htokens] at hupcoming
      exact ⟨front, next, back, wanted, hupcoming, hhalts, rfl⟩

/-- A text spells one derivation at most. -/
theorem spells_unique {cs : List Char} {d d' : Derivation [.phrase .definitions]} (hd : Spells cs d)
    (hd' : Spells cs d') : d = d' :=
  Derivation.definitions_unique
    (List.map_injective_iff.mpr (fun _ _ => Except.ok.inj) (hd.items_eq.symm.trans hd'.items_eq))

/-- A text that spells a derivation is read, and the tree is the value of the derivation. -/
theorem parse_of_spells {cs : List Char} {d : Derivation [.phrase .definitions]} (hd : Spells cs d) :
    ∃ program, parse cs = .ok program ∧ program.unnumbered = d.values.1 := by
  cases h : parse cs with
  | ok program =>
      obtain ⟨d', hd', hvalue⟩ := spells_of_parse h
      exact ⟨program, rfl, spells_unique hd hd' ▸ hvalue⟩
  | error e =>
      obtain ⟨front, next, back, -, htokens, hhalts, -⟩ := halts_of_parse hd.items_eq hd.fits h
      refine absurd ⟨d.closed (Cursor.start cs).scan.stop, ?_⟩ hhalts.viable.2
      rw [Derivation.kinds, Derivation.tokens_closed, htokens, List.map_append, List.map_cons]
      exact ⟨back.map Token.kind, by rw [List.append_assoc]; rfl⟩

/-- The texts that are read are the sentences of the grammar. Each has one derivation, and the tree is
its value. -/
theorem reads_sentences (cs : List Char) :
    ((∃ program, parse cs = .ok program) ↔ ∃ d, Spells cs d) ∧
      (∀ d d', Spells cs d → Spells cs d' → d = d') ∧
      ∀ program d, parse cs = .ok program → Spells cs d → program.unnumbered = d.values.1 := by
  refine ⟨⟨?_, ?_⟩, fun d d' => spells_unique, ?_⟩
  · rintro ⟨program, h⟩
    obtain ⟨d, hd, -⟩ := spells_of_parse h
    exact ⟨d, hd⟩
  · rintro ⟨d, hd⟩
    obtain ⟨program, h, -⟩ := parse_of_spells hd
    exact ⟨program, h⟩
  · intro program d h hd
    obtain ⟨program', h', hvalue⟩ := parse_of_spells hd
    cases h.symm.trans h'
    exact hvalue

def sentenceSample : Spelled
    "var a = 2 * 3, 'x' fun f(p) fun main() = a^ = -f(^a)^ * 2, if a < 1 then f((a)) end" :=
  .literal _

theorem reads_sentences_sample : ∃ program d, parse sentenceSample.chars = .ok program ∧
    Spells sentenceSample.chars d ∧ program.unnumbered = d.values.1 := by
  have hparse : (parse sentenceSample.chars).toOption.isSome = true := by decide +kernel
  obtain ⟨program, hprogram⟩ := Option.isSome_iff_exists.mp hparse
  have hok := toOption_eq_some hprogram
  obtain ⟨hiff, -, htree⟩ := reads_sentences sentenceSample.chars
  obtain ⟨d, hd⟩ := hiff.mp ⟨program, hok⟩
  exact ⟨program, d, hok, hd, htree program d hok hd⟩

end Program

end NestedFun
