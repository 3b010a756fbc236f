import NestedFun.Proofs.LabelNumbers
import NestedFun.Proofs.Loading
import NestedFun.Proofs.TerminalText

namespace NestedFun

/-!
# Lines of listings

The lines of a listing as a reader sees them: an address, a size, and then a label or, at an indent,
the text of an instruction or a datum. Listings with and without colours show the same lines.
-/

/-! ## Lines -/

structure ListedItem where
  size : Int
  isLabel : Bool
  text : String
deriving DecidableEq

structure ListedLine where
  address : Word
  item : ListedItem
deriving DecidableEq

/-- What follows the address and the size: a label, or something else at an indent. -/
def ListedItem.shown (item : ListedItem) : String :=
  (if item.isLabel then "" else "    ") ++ item.text

def ListedLine.shown (line : ListedLine) : String :=
  padLeft 8 line.address.numeral ++ " [" ++ toString line.item.size ++ "] " ++ line.item.shown
    ++ "\n"

def Instruction.listed (i : Instruction) : ListedItem := ⟨i.size, i.label?.isSome, i.text⟩

def Datum.listed (d : Datum) : ListedItem := ⟨d.size, d.label?.isSome, d.text⟩

def Instruction.textLabel? : Instruction → Option String
  | label l | name l => some l
  | call frame | retn frame => some frame.label
  | push _ | popn | regn _ | oper _ | load | save | ujmp | cjmp | init => none

namespace Segments

def codeLines (segments : Segments) : List ListedLine :=
  segments.addressedCode.map fun entry => ⟨.ofInt entry.1, entry.2.item.listed⟩

def dataLines (segments : Segments) (dataStart : Int) : List ListedLine :=
  (segments.addressedData dataStart).map fun entry => ⟨.ofInt entry.1, entry.2.item.listed⟩

def shownListing (segments : Segments) (dataStart : Int) : String :=
  "code segment:\n" ++ String.join (segments.codeLines.map ListedLine.shown) ++
    "data segment:\n" ++ String.join ((segments.dataLines dataStart).map ListedLine.shown)

structure HasPrintableLabels (segments : Segments) : Prop where
  code : ∀ i ∈ segments.code, ∀ l, i.item.textLabel? = some l → IsPrintable l
  data : ∀ d ∈ segments.data, ∀ l, d.item.label? = some l → IsPrintable l

end Segments

/-! ## Texts -/

theorem join_mnemonic (text : String) :
    String.join ((mnemonic text).map Piece.text) = "    " ++ text := by
  simp [mnemonic, Piece.plain, Piece.paint]

theorem join_withOperand {text start : String} (colour : Colour) (operand : String)
    (h : text ++ " " = start) :
    String.join ((withOperand text colour operand).map Piece.text)
      = "    " ++ (start ++ operand) := by
  simp [withOperand, mnemonic, Piece.plain, Piece.paint, ← h, String.append_assoc]

theorem Instruction.join_pieces (i : Instruction) :
    String.join (i.pieces.map Piece.text) = i.listed.shown := by
  cases i with
  | label l => simp [pieces, Piece.paint, listed, label?, ListedItem.shown, text]
  | push | regn | oper | name | call | retn => exact join_withOperand _ _ (by decide)
  | popn | load | save | ujmp | cjmp | init => exact join_mnemonic _

theorem Datum.join_pieces (d : Datum) :
    String.join (d.pieces.map Piece.text) = d.listed.shown := by
  have hsize (size : Word) : String.join ((withOperand "SIZE" .magenta size.numeral).map Piece.text)
      = "    " ++ ("SIZE " ++ size.numeral) := join_withOperand _ _ (by decide)
  rcases d with l | v | ⟨size, contents⟩
  · simp [pieces, Piece.paint, listed, label?, ListedItem.shown, text]
  · exact join_withOperand _ _ (by decide)
  · cases contents <;>
      simp [pieces, String.join_append, hsize, Piece.paint, listed, label?, ListedItem.shown, text,
        String.append_assoc]

theorem mnemonic_isPrintable {text : String} (h : IsPrintable text) :
    ∀ piece ∈ mnemonic text, IsPrintable piece.text := by
  simpa [mnemonic, Piece.plain, Piece.paint, h] using (by decide : IsPrintable "    ")

theorem withOperand_isPrintable {text : String} (colour : Colour) {operand : String}
    (h : IsPrintable text) (hoperand : IsPrintable operand) :
    ∀ piece ∈ withOperand text colour operand, IsPrintable piece.text := by
  intro piece hpiece
  rcases List.mem_append.mp hpiece with hpiece | hpiece
  · exact mnemonic_isPrintable h piece hpiece
  · rcases List.mem_pair.mp hpiece with rfl | rfl
    · show IsPrintable " "
      decide
    · exact hoperand

theorem Instruction.pieces_isPrintable {i : Instruction}
    (h : ∀ l, i.textLabel? = some l → IsPrintable l) :
    ∀ piece ∈ i.pieces, IsPrintable piece.text := by
  cases i with
  | label l =>
      intro piece hpiece
      obtain rfl := List.mem_singleton.mp hpiece
      exact IsPrintable.append.mpr ⟨h l rfl, by decide⟩
  | push v => exact withOperand_isPrintable _ (by decide) (.numeral v)
  | regn register => exact withOperand_isPrintable _ (by decide) (.register register)
  | oper operator => exact withOperand_isPrintable _ (by decide) (.operator operator)
  | name l => exact withOperand_isPrintable _ (by decide) (h l rfl)
  | call frame | retn frame => exact withOperand_isPrintable _ (by decide) (h frame.label rfl)
  | popn | load | save | ujmp | cjmp | init => exact mnemonic_isPrintable (by decide)

theorem Datum.pieces_isPrintable {d : Datum} (h : ∀ l, d.label? = some l → IsPrintable l) :
    ∀ piece ∈ d.pieces, IsPrintable piece.text := by
  cases d with
  | label l =>
      intro piece hpiece
      obtain rfl := List.mem_singleton.mp hpiece
      exact IsPrintable.append.mpr ⟨h l rfl, by decide⟩
  | word v => exact withOperand_isPrintable _ (by decide) (.numeral v)
  | reserve size contents =>
      intro piece hpiece
      rcases List.mem_append.mp hpiece with hpiece | hpiece
      · exact withOperand_isPrintable _ (by decide) (.numeral size) piece hpiece
      · obtain rfl := List.mem_singleton.mp hpiece
        cases contents with
        | none => exact (by decide : IsPrintable "")
        | some contents => exact IsPrintable.append.mpr ⟨by decide, .listing contents.words⟩

theorem addressPiece_text (address size : Int) :
    (addressPiece address size).text
      = padLeft 8 (Word.ofInt address).numeral ++ " [" ++ toString size ++ "]" := rfl

namespace Terminal.Lawful

variable {terminal : Terminal}

/-- The line of pieces behind an address is shown as it is described. -/
theorem shows_listed (hterminal : terminal.Lawful) (coloured : Bool) (address : Int)
    (item : ListedItem) {pieces : List Piece}
    (htext : String.join (pieces.map Piece.text) = item.shown)
    (h : ∀ piece ∈ pieces, IsPrintable piece.text) :
    terminal.Shows
      (renderLine terminal coloured ([addressPiece address item.size, .plain " "] ++ pieces))
      (ListedLine.shown ⟨.ofInt address, item⟩) := by
  have haddress : IsPrintable (addressPiece address item.size).text := by
    simp only [addressPiece_text, IsPrintable.append]
    exact ⟨⟨⟨IsPrintable.padLeft (.numeral _) 8, by decide⟩, .integer _⟩, by decide⟩
  have hblank : IsPrintable (Piece.plain " ").text := (by decide : IsPrintable " ")
  have hpieces : ∀ piece ∈ [addressPiece address item.size, .plain " "] ++ pieces,
      IsPrintable piece.text := by
    intro piece hpiece
    rcases List.mem_append.mp hpiece with hpiece | hpiece
    · rcases List.mem_pair.mp hpiece with rfl | rfl
      · exact haddress
      · exact hblank
    · exact h piece hpiece
  have hline := hterminal.shows_line coloured hpieces
  have hshown : ListedLine.shown ⟨.ofInt address, item⟩
      = String.join ([addressPiece address item.size, .plain " "].map Piece.text)
        ++ item.shown ++ "\n" := by
    have hbracket : "] " = "]" ++ " " := rfl
    simp [ListedLine.shown, addressPiece_text, Piece.plain, hbracket, String.append_assoc]
  rw [List.map_append, String.join_append, htext] at hline
  rw [hshown]
  exact hline

theorem shows_instruction (hterminal : terminal.Lawful) (coloured : Bool) (address : Int)
    {i : Instruction} (h : ∀ l, i.textLabel? = some l → IsPrintable l) :
    terminal.Shows
      (renderLine terminal coloured ([addressPiece address i.size, .plain " "] ++ i.pieces))
      (ListedLine.shown ⟨.ofInt address, i.listed⟩) :=
  hterminal.shows_listed coloured address i.listed i.join_pieces (i.pieces_isPrintable h)

theorem shows_datum (hterminal : terminal.Lawful) (coloured : Bool) (address : Int) {d : Datum}
    (h : ∀ l, d.label? = some l → IsPrintable l) :
    terminal.Shows
      (renderLine terminal coloured ([addressPiece address d.size, .plain " "] ++ d.pieces))
      (ListedLine.shown ⟨.ofInt address, d.listed⟩) :=
  hterminal.shows_listed coloured address d.listed d.join_pieces (d.pieces_isPrintable h)

theorem shows_title (hterminal : terminal.Lawful) (coloured : Bool) (title : String)
    (h : IsPrintable title) :
    terminal.Shows (renderLine terminal coloured [.paint .brightWhite title]) (title ++ "\n") := by
  have hpieces : ∀ piece ∈ [Piece.paint .brightWhite title], IsPrintable piece.text :=
    List.forall_mem_singleton.mpr h
  simpa [Piece.paint] using hterminal.shows_line coloured hpieces

end Terminal.Lawful

namespace Segments

variable {segments : Segments}

/-- The listing is shown as it is described, on every terminal, with colours and without. -/
theorem listingOn_shown {terminal : Terminal} (hterminal : terminal.Lawful)
    (h : segments.HasPrintableLabels) {codeSize : Int} (hsize : segments.codeSize = .ok codeSize)
    (coloured : Bool) :
    ∃ text, segments.listingOn terminal coloured = .ok text ∧
      terminal.strip text = segments.shownListing codeSize := by
  refine ⟨String.join ((segments.lines codeSize).map (renderLine terminal coloured)), ?_, ?_⟩
  · rw [listingOn, hsize]
    rfl
  · have hcode := @Terminal.Shows.join terminal _ _ _ segments.addressedCode fun entry hentry =>
      hterminal.shows_instruction coloured entry.1
        (h.code entry.2 (mem_of_mem_addressed hentry))
    have hdata := @Terminal.Shows.join terminal _ _ _ (segments.addressedData codeSize)
      fun entry hentry => hterminal.shows_datum coloured entry.1
        (h.data entry.2 (mem_of_mem_addressed hentry))
    have hwhole := (((hterminal.shows_title coloured "code segment:" (by decide)).append
      hcode).append (hterminal.shows_title coloured "data segment:" (by decide))).append hdata
    simp only [lines, List.map_append, List.map_cons, List.map_nil, List.map_map,
      String.join_append, String.join_cons, String.join_nil, String.append_empty]
    refine (hwhole.strip hterminal).trans ?_
    simp only [shownListing, codeLines, dataLines, List.map_map]
    rfl

end Segments

end NestedFun
