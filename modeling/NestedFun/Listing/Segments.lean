import NestedFun.Listing.Terminal
import NestedFun.Segment.Segments

namespace NestedFun

/-!
# Listing of segments

One line for each instruction and each datum, with its address and its size. Addresses are words
and go on from the code to the data.
-/

/-- What starts every line. -/
def addressPiece (address size : Int) : Piece :=
  .paint .brightBlack s!"{padLeft 8 (Word.ofInt address).numeral} [{size}]"

def mnemonic (text : String) : List Piece :=
  [.plain "    ", .paint .cyan text]

def withOperand (text : String) (colour : Colour) (operand : String) : List Piece :=
  mnemonic text ++ [.plain " ", .paint colour operand]

def Instruction.pieces : Instruction → List Piece
  | .label l => [.paint .brightRed (l ++ ":")]
  | .push value => withOperand "PUSH" .magenta value.numeral
  | .regn register => withOperand "REGN" .yellow register.text
  | .oper operator => withOperand "OPER" .white operator.text
  | .name l => withOperand "NAME" .blue l
  | .call frame => withOperand "CALL" .blue frame.label
  | .retn frame => withOperand "RETN" .blue frame.label
  | .popn => mnemonic "POPN"
  | .load => mnemonic "LOAD"
  | .save => mnemonic "SAVE"
  | .ujmp => mnemonic "UJMP"
  | .cjmp => mnemonic "CJMP"
  | .init => mnemonic "INIT"

def Datum.pieces : Datum → List Piece
  | .label l => [.paint .brightRed (l ++ ":")]
  | .word value => withOperand "DATA" .magenta value.numeral
  | .reserve size contents =>
    withOperand "SIZE" .magenta size.numeral
      ++ [.paint .white ((contents.map fun contents => " " ++ contents.display).getD "")]

def renderLine (terminal : Terminal) (coloured : Bool) (pieces : List Piece) : String :=
  String.join (pieces.map (Piece.render terminal coloured)) ++ "\n"

namespace Segments

/-- The lines of the listing when the data start at the given address. -/
def lines (segments : Segments) (dataStart : Int) : List (List Piece) :=
  [[.paint .brightWhite "code segment:"]]
    ++ segments.addressedCode.map (fun (address, instruction) =>
      [addressPiece address instruction.item.size, .plain " "] ++ instruction.item.pieces)
    ++ [[.paint .brightWhite "data segment:"]]
    ++ (segments.addressedData dataStart).map fun (address, datum) =>
      [addressPiece address datum.item.size, .plain " "] ++ datum.item.pieces

def listingOn (terminal : Terminal) (coloured : Bool) (segments : Segments) :
    Except InternalError String := do
  let dataStart ← segments.codeSize
  return String.join ((segments.lines dataStart).map (renderLine terminal coloured))

/-- What a terminal shows of the listing. -/
def plainListingOn (terminal : Terminal) (coloured : Bool) (segments : Segments) :
    Except InternalError String := do
  return terminal.strip (← segments.listingOn terminal coloured)

def listing (coloured : Bool) (segments : Segments) : Except InternalError String :=
  segments.listingOn .standard coloured

def plainListing (segments : Segments) : Except InternalError String :=
  segments.plainListingOn .standard false

end Segments

end NestedFun
