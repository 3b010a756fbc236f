import NestedFun.Scope.Resolution
import NestedFun.Segment.Segments
import NestedFun.Tree.Parser

namespace NestedFun

/-!
# Compiling

From a text to segments. The front half reads a program and resolves its names; the back half lays
it out, generates its fragments and assembles them.
-/

/-- A program and what its names refer to. -/
structure Analysis where
  program : Program
  resolution : Resolution

def analyze (source : Source) : Except CompileError Analysis := do
  let program ← Program.parse source.contents.toList
  let resolution ← program.resolve
  return ⟨program, resolution⟩

structure Compiled where
  layout : Layout
  fragments : Fragments
  segments : Segments
  codeSize : Int
  dataSize : Int

namespace Compiled

def report (compiled : Compiled) : List String :=
  let frames := compiled.layout.frames.size
  let accesses := compiled.layout.accesses.size
  let functions := compiled.fragments.functions.size
  [s!"laid out {frames} frames and {accesses} variables",
   s!"generated code for {functions} functions",
   s!"assembled {compiled.codeSize} bytes of code and {compiled.dataSize} bytes of data"]

end Compiled

def Analysis.compile (analysis : Analysis) : Except InternalError Compiled := do
  let program := analysis.program
  let layout ← program.layOut
  let (fragments, _) ← program.generateCounted ⟨analysis.resolution.definitions, layout⟩ {}
  let segments ← program.assemble layout fragments
  return ⟨layout, fragments, segments, ← segments.codeSize, ← segments.dataSize⟩

end NestedFun
