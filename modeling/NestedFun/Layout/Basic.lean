import Std.Data.TreeMap
import NestedFun.InternalError
import NestedFun.Layout.Frame

namespace NestedFun

/-!
# Layout

Every function gets a frame and a label, every variable and parameter a place. The locals of a
function lie one below the other in source order, those of inner blocks included.
-/

/-- The frame of every function and the access of every variable and parameter, by the number of
the node that defines it. -/
structure Layout where
  frames : Std.TreeMap NodeId Frame := ∅
  accesses : Std.TreeMap NodeId Access := ∅

namespace Layout

def frame (layout : Layout) (id : NodeId) : Except InternalError Frame :=
  match layout.frames[id]? with
  | some frame => .ok frame
  | none => .error (.missingFrame id)

def access (layout : Layout) (id : NodeId) : Except InternalError Access :=
  match layout.accesses[id]? with
  | some access => .ok access
  | none => .error (.missingAccess id)

def addFrame (layout : Layout) (id : NodeId) (frame : Frame) : Layout :=
  { layout with frames := layout.frames.insert id frame }

def addAccess (layout : Layout) (id : NodeId) (access : Access) : Layout :=
  { layout with accesses := layout.accesses.insert id access }

end Layout

/-- The `n`th label to try for a base name: the name itself, then the name with a number. -/
def numberedLabel (base : String) : Nat → String
  | 0 => base
  | n + 1 => s!"{base}.{n + 1}"

def freeLabel (base : String) (taken : List String) (n : Nat) : String :=
  let label := numberedLabel base n
  if label ∈ taken then freeLabel base (taken.erase label) (n + 1) else label
termination_by taken.length
decreasing_by
  have := List.length_pos_of_mem (by assumption : label ∈ taken)
  rw [List.length_erase_of_mem (by assumption)]
  omega

/-- A function whose inside is being laid out. -/
structure Owner where
  label : String
  depth : Nat

/-- What has been laid out so far: the labels taken, the tables, and the bytes of the locals of the
current function. -/
structure LayoutState where
  taken : List String := []
  layout : Layout := {}
  locals : Int := 0

namespace LayoutState

/-- Gives the parameters of a function their places, from `offset` on. -/
def addParameters (state : LayoutState) (depth : Nat) (offset : Int) :
    List Parameter → LayoutState
  | [] => state
  | parameter :: parameters =>
    let access : Access := .relative offset depth wordSize none
    { state with layout := state.layout.addAccess parameter.id access }.addParameters depth
      (offset + wordSize) parameters

/-- Gives a variable its place: in the frame of its owner, or at a label of its own name. -/
def addVariable (state : LayoutState) (owner : Option Owner) (head : Variable) :
    Except InternalError LayoutState := do
  let contents := Contents.ofVariable head
  let some size := contents.size? | throw (.contentsOverflow contents.words)
  match owner with
  | none =>
    let access : Access := .absolute head.name.text size contents
    return { state with layout := state.layout.addAccess head.id access }
  | some owner =>
    let locals ← fitting (state.locals + size) (.localsOverflow owner.label)
    let offset ← fitting (-headerSize - locals) (.localsOverflow owner.label)
    let access : Access := .relative offset owner.depth size (some contents)
    return { state with layout := state.layout.addAccess head.id access, locals }

end LayoutState

/-- The label that a function has if no other function took it: its name behind the label of the
function around it. -/
def baseLabel (owner : Option Owner) (name : String) : String :=
  match owner with
  | none => name
  | some owner => s!"{owner.label}.{name}"

mutual

def Definition.layOut (owner : Option Owner) (state : LayoutState) :
    Definition → Except InternalError LayoutState
  | .var head => state.addVariable owner head
  | .func head body => do
    let label := freeLabel (baseLabel owner head.name.text) state.taken 0
    let depth := (owner.map fun owner => owner.depth).getD 0 + 1
    let opened := { state with taken := label :: state.taken, locals := 0 }
    -- no sum on the way to the last parameter is larger than the bytes of all of them
    let parameters ← fitting (head.parameters.length * wordSize) .additionOverflow
    let inside := opened.addParameters depth linkSize head.parameters
    let filled ← layOutStatements (some ⟨label, depth⟩) inside body
    let parametersSize ← fitting (parameters + linkSize) .additionOverflow
    let localsSize ← fitting (filled.locals + headerSize) (.frameOverflow label)
    let frame : Frame := ⟨head.name.text, label, depth, parametersSize, localsSize⟩
    return { filled with layout := filled.layout.addFrame head.id frame, locals := state.locals }

def layOutDefinitions (owner : Option Owner) (state : LayoutState) :
    List Definition → Except InternalError LayoutState
  | [] => .ok state
  | definition :: definitions => do
    layOutDefinitions owner (← definition.layOut owner state) definitions

def Statement.layOut (owner : Option Owner) (state : LayoutState) :
    Statement → Except InternalError LayoutState
  | .eval _ _ | .assign _ _ _ => .ok state
  | .branch _ _ positive negative => do
    layOutStatements owner (← layOutStatements owner state positive) negative
  | .loop _ _ body => layOutStatements owner state body
  | .block _ definitions body => do
    layOutStatements owner (← layOutDefinitions owner state definitions) body

def layOutStatements (owner : Option Owner) (state : LayoutState) :
    List Statement → Except InternalError LayoutState
  | [] => .ok state
  | statement :: statements => do
    layOutStatements owner (← statement.layOut owner state) statements

end

def Program.layOut (program : Program) : Except InternalError Layout := do
  let state ← layOutDefinitions none {} program
  return state.layout

end NestedFun
