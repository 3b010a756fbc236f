import NestedFun.Machine.State
import NestedFun.Machine.SystemFunction
import NestedFun.Segment.Segments

namespace NestedFun

/-!
# Loading

Segments become an image and a first state: the code at address 0, the data with their initial
contents behind it. Every label that the code names has to be defined, once. System functions give
way to labels of the same name.
-/

inductive LoadError where
  | internal (error : InternalError)
  | fault (kind : FaultKind)

/-- The bytes of code: every instruction stands at its first byte, labels nowhere. -/
def codeBytes : Code → List (Option Instruction)
  | [] => []
  | instruction :: code =>
    match instruction.item.size with
    | 0 => codeBytes code
    | n + 1 => some instruction.item :: List.replicate n none ++ codeBytes code

abbrev LabelTable := Std.TreeMap String Word

namespace LabelTable

/-- Adds a label that is not in the table. -/
def define (labels : LabelTable) (label : String) (address : Int) :
    Except FaultKind LabelTable :=
  if labels.contains label then .error (.duplicateLabel label)
  else .ok (labels.insert label (.ofInt address))

def defineCode (labels : LabelTable) :
    List (Int × Located Instruction) → Except FaultKind LabelTable
  | [] => .ok labels
  | (address, instruction) :: code =>
    match instruction.item with
    | .label name => do defineCode (← labels.define name address) code
    | _ => defineCode labels code

/-- Adds the system functions whose names are not in the table. -/
def withSystemFunctions (labels : LabelTable) : LabelTable :=
  SystemFunction.all.foldl (fun labels function =>
    labels.insertIfNew function.name function.address) labels

end LabelTable

/-- Writes words to memory, all of which have to find a place. -/
def Memory.writeAll (memory : Memory) (address : Int) (words : List Word) :
    Except FaultKind Memory :=
  match memory.writeWords (.ofInt address) words with
  | (memory, .ok ()) => .ok memory
  | (_, .error kind) => .error kind

def loadData (labels : LabelTable) (memory : Memory) :
    List (Int × Located Datum) → Except FaultKind (LabelTable × Memory)
  | [] => .ok (labels, memory)
  | (address, datum) :: data => do
    match datum.item with
    | .label name => loadData (← labels.define name address) memory data
    | .word value => loadData labels (← memory.writeAll address [value]) data
    | .reserve _ (some contents) => loadData labels (← memory.writeAll address contents.expand) data
    | .reserve _ none => loadData labels memory data

/-- The first label that the code names and that has no address. -/
def undefinedLabel? (labels : LabelTable) (code : Code) : Option String :=
  code.findSome? fun instruction =>
    match instruction.item with
    | .name label => if labels.contains label then none else some label
    | _ => none

/-- The usable part of a memory of a given size: a whole number of words, with addresses that fit
words. -/
def usableMemory (size : Nat) : Nat :=
  min size (wordBound - 1) / wordSize * wordSize

def Segments.load (segments : Segments) (memorySize : Nat) (input : List UInt8) (output : Output) :
    Except LoadError (Image × State) := do
  let codeSize ← segments.codeSize.mapError .internal
  let dataSize ← segments.dataSize.mapError .internal
  let memorySize := usableMemory memorySize
  let dataStop := codeSize + dataSize
  if !fitsWord dataStop || memorySize < dataStop then
    throw (.fault (.outOfMemory (.ofInt dataSize)))
  let labels ← (LabelTable.defineCode ∅ segments.addressedCode).mapError .fault
  let memory := Memory.zeros memorySize codeSize.toNat
  let (labels, memory) ← (loadData labels memory (segments.addressedData codeSize)).mapError .fault
  let labels := labels.withSystemFunctions
  if let some label := undefinedLabel? labels segments.code then
    throw (.fault (.undefinedLabel label))
  let top := Word.ofInt memorySize
  return (⟨(codeBytes segments.code).toArray, labels⟩,
    { memory, pc := 0, sp := top, fp := top, heapEnd := (Word.ofInt dataStop).alignUp,
      callStack := [], input, output })

def loadReport (image : Image) (s : State) : String :=
  s!"loaded {image.count} instructions, heap starts at {s.heapEnd.numeral}"

end NestedFun
