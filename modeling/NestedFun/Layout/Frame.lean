import NestedFun.Layout.Contents

namespace NestedFun

/-!
# Frames and accesses

A call of a function owns a frame on the stack. Seen from the frame pointer, the static link stands
at offset 0 and the parameters above it; the saved frame pointer and the return address stand below
it and the locals below these. The static link points to a frame of the enclosing function.
-/

def linkSize : Int := wordSize

/-- The bytes of the saved frame pointer and the return address. -/
def headerSize : Int := 2 * wordSize

/-- The shape of a function's frames. Functions at the top level have depth 1. -/
structure Frame where
  name : String
  label : String
  depth : Nat
  parametersSize : Int
  localsSize : Int
deriving DecidableEq

/-- Where a variable or parameter is stored: at an offset in the frames of the function at some
depth, or at a label. Parameters have no initial contents. -/
inductive Access where
  | relative (offset : Int) (depth : Nat) (size : Int) (contents : Option Contents)
  | absolute (label : String) (size : Int) (contents : Contents)
deriving DecidableEq

namespace Access

def size : Access → Int
  | relative _ _ size _ | absolute _ size _ => size

def contents? : Access → Option Contents
  | relative _ _ _ contents => contents
  | absolute _ _ contents => some contents

end Access

end NestedFun
