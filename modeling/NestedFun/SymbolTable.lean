import Std.Data.TreeMap

namespace NestedFun

/-!
# Symbol tables

A table numbers the distinct texts put into it from 0, in the order in which they first come. It keeps
the numbers in 32 bits, so those of a larger table come around again.
-/

structure SymbolTable where
  texts : Array String := #[]
  indices : Std.TreeMap String UInt32 := ∅

namespace SymbolTable

def get? (table : SymbolTable) (index : Nat) : Option String :=
  table.texts[index]?

def indexOf? (table : SymbolTable) (text : String) : Option Nat :=
  table.indices[text]?.map UInt32.toNat

/-- Puts a text into the table unless it is there; yields its number. -/
def insert (table : SymbolTable) (text : String) : Nat × SymbolTable :=
  match table.indexOf? text with
  | some index => (index, table)
  | none =>
    let index := UInt32.ofNat table.texts.size
    (index.toNat, ⟨table.texts.push text, table.indices.insert text index⟩)

def ofList (texts : List String) : SymbolTable :=
  texts.foldl (fun table text => (table.insert text).2) {}

end SymbolTable

end NestedFun
