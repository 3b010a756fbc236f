import NestedFun.Machine.Step

namespace NestedFun

/-!
# Live input

A run whose input arrives piece by piece stops where the input that has arrived is not enough for
the next instruction, and goes on when there is more. It takes the same steps as a run that has all
its input from the start.
-/

/-- Whether the next instruction calls a system function that needs more input than there is: a
whole line for numbers, a byte for characters. -/
def awaitsInput (image : Image) (s : State) : Bool :=
  match image.fetch? s.pc with
  | some (.call _) =>
    match (s.memory.read s.sp).toOption.bind SystemFunction.ofAddress? with
    | some .getint => !s.input.contains 10
    | some .getchr => s.input.isEmpty
    | _ => false
  | _ => false

/-- Carries out at most `n` instructions, but none that awaits input; adds a line for each to a
trace if it is wanted. -/
def runToInput (image : Image) (traced : Bool) :
    Nat → Array String → State → Outcome × Array String × State
  | 0, trace, s => (.running, trace, s)
  | n + 1, trace, s =>
    if awaitsInput image s then (.running, trace, s)
    else
      match runTraced image traced 1 trace s with
      | (.running, trace, s) => runToInput image traced n trace s
      | final => final

end NestedFun
