import NestedFun.Proofs.MaximalMunch
import NestedFun.Proofs.SystemDeclarations

namespace NestedFun

/-!
# The characters of string constants

Between the quotes of a string constant stand pieces, each of which spells one character.
-/

/-- A string constant spells the characters with some codes, in this order: it consists of an element
for each of them between double quotes. -/
def Decodes (raw : List Char) (codes : List Nat) : Prop :=
  ∃ pieces, raw = '"' :: (pieces.flatten ++ ['"']) ∧ List.Forall₂ (ElementCode '"') pieces codes

/-- Lexing a text finds one string constant in it, which is all of the text. -/
def IsStringConstant (raw : List Char) : Prop :=
  ∃ span, (Cursor.start raw).scan.items = [.ok ⟨.string, span, raw⟩]

/-! ## Reading pieces -/

/-- Pieces with a quote behind them are read up to this quote. -/
theorem readString_flatten {pieces : List (List Char)} {codes : List Nat}
    (h : List.Forall₂ (ElementCode '"') pieces codes) (more : List Char) :
    readString (pieces.flatten ++ '"' :: more) = ⟨.ok (), pieces.flatten ++ ['"'], more⟩ := by
  induction h with
  | nil => rw [List.flatten_nil, List.nil_append, readString, if_pos rfl, List.nil_append]
  | @cons piece code pieces codes hpiece _ ih =>
      have hread := hpiece.reads (.inl rfl) (pieces.flatten ++ '"' :: more)
      obtain ⟨c, cs, rfl, hc⟩ := hpiece.head_ne (.inl rfl)
      rw [List.cons_append] at hread
      rw [List.flatten_cons, List.append_assoc, List.cons_append, readString, if_neg hc]
      simp only [hread, ih, Reading.prepend, List.cons_append, List.append_assoc]

/-- What is read up to a quote consists of pieces. -/
theorem exists_pieces_of_readString {cs : List Char} (h : (readString cs).result = .ok ()) :
    ∃ pieces codes, (readString cs).text = pieces.flatten ++ ['"'] ∧
      List.Forall₂ (ElementCode '"') pieces codes := by
  obtain ⟨pieces, htext, hpieces⟩ := readString_elements cs h
  obtain ⟨codes, hcodes⟩ := hpieces.elements
  exact ⟨pieces, codes, htext, hcodes⟩

/-! ## String constants -/

theorem readLexeme_string {c : Char} {cs : List Char} (h : (readLexeme c cs).result = .ok .string) :
    c = '"' ∧ (readString cs).result = .ok () := by
  unfold readLexeme at h
  split at h
  · rename_i hc
    refine ⟨hc, ?_⟩
    cases hresult : (readString cs).result with
    | ok => rfl
    | error e => simp [Reading.prepend, hresult, Except.map] at h
  · split at h
    · cases hresult : (readCharacter cs).result <;>
        simp [Reading.prepend, hresult, Except.map] at h
    · split at h
      · cases h
      · split at h
        · rcases wordKind_cases (c :: cs.takeWhile isWordChar) with hk | ⟨keyword, hk⟩ <;>
            simp [hk] at h
        · exact absurd rfl (readSign_kind h).2.2.2

namespace Decodes

variable {raw : List Char} {codes : List Nat}

/-- A string constant is read as one whatever stands behind it. -/
theorem readLexeme (h : Decodes raw codes) : ∃ inside, raw = '"' :: inside ∧ ∀ more,
    readLexeme '"' (inside ++ more) = ⟨.ok .string, raw, more⟩ := by
  obtain ⟨pieces, rfl, hpieces⟩ := h
  refine ⟨_, rfl, fun more => ?_⟩
  rw [List.append_assoc, List.singleton_append, NestedFun.readLexeme, if_pos rfl,
    readString_flatten hpieces]
  rfl

theorem constantChars_eq (h : Decodes raw codes) : constantChars raw = codes.map Char.ofNat := by
  obtain ⟨pieces, rfl, hpieces⟩ := h
  rw [constantChars, List.drop_succ_cons, List.drop_zero, List.dropLast_concat,
    unescape_elements (.inl rfl) hpieces]

theorem code_lt (h : Decodes raw codes) : ∀ code ∈ codes, code < 256 := by
  obtain ⟨pieces, -, hpieces⟩ := h
  induction hpieces with
  | nil => exact nofun
  | cons hpiece _ ih => exact List.forall_mem_cons.mpr ⟨hpiece.lt (.inl rfl), ih⟩

end Decodes

/-- Lexing finds a string constant in just those texts that spell some characters. -/
theorem isStringConstant_iff {raw : List Char} : IsStringConstant raw ↔ ∃ codes, Decodes raw codes := by
  constructor
  · rintro ⟨span, hitems⟩
    cases hu : unskipped false (Cursor.start raw).rest with
    | nil =>
        rw [Cursor.scan_nil hu] at hitems
        cases hitems
    | cons c cs =>
        rw [Cursor.scan_cons hu, Cursor.next_eq hu] at hitems
        obtain ⟨hresult, hlexeme⟩ := Reading.outcome_ok (List.cons.inj hitems).1
        obtain ⟨rfl, hread⟩ := readLexeme_string hresult
        obtain ⟨pieces, codes, htext, hpieces⟩ := exists_pieces_of_readString hread
        refine ⟨codes, pieces, ?_, hpieces⟩
        rw [← htext]
        exact hlexeme
  · rintro ⟨codes, hcodes⟩
    obtain ⟨inside, rfl, hread⟩ := hcodes.readLexeme
    have hread := hread []
    rw [List.append_nil] at hread
    have hu : unskipped false (Cursor.start ('"' :: inside)).rest = '"' :: inside := rfl
    rw [IsStringConstant, Cursor.scan_cons hu, Cursor.next_eq hu, hread, Cursor.scan_nil rfl]
    exact ⟨_, rfl⟩

end NestedFun
