import NestedFun.CommandLine.Session
import NestedFun.Machine.Live

namespace NestedFun

/-!
# The command line program

Compiles the program in a file and runs it. All decisions are made by the session; here files and
input are read and output and messages are written.
-/

/-- What a path leads to; whatever cannot be read counts as no file. -/
def readContents (path : String) : IO FileContents := do
  try
    return .bytes (← IO.FS.readBinFile path)
  catch _ => return .noFile

def writeMessages (messages : List String) : IO Unit := do
  let stderr ← IO.getStderr
  for message in messages do
    stderr.putStr (message ++ "\n")

/-- Runs a machine to its end. Output and trace are written as they come, and input is read when it
is needed; `more` says whether there may be any left to read. -/
partial def runToEnd (image : Image) (traced coloured more : Bool) (state : State) :
    IO Outcome := do
  let (outcome, trace, state) :=
    if more then runToInput image traced 10000 #[] state
    else runTraced image traced 10000 #[] state
  let stdout ← IO.getStdout
  stdout.write state.output.bytes
  stdout.flush
  writeMessages (trace.toList.map (messageText coloured .trace))
  let state := { state with output := {} }
  match outcome with
  | .running =>
    if more && awaitsInput image state then
      let bytes ← (← IO.getStdin).read 65536
      runToEnd image traced coloured (!bytes.isEmpty)
        { state with input := state.input ++ bytes.toList }
    else runToEnd image traced coloured more state
  | final => return final

/-- Carries out what the options ask for; yields the exit status. -/
def runFile (options : Options) : IO UInt32 := do
  let stdout ← IO.getStdout
  let coloured := !options.noColor && (← stdout.isTty)
  let contents ← match options.file with
    | some path => readContents path
    | none => pure .noFile
  match openFile (fun _ => contents) options coloured [] with
  | .finished status transcript =>
    stdout.putStr transcript.output
    writeMessages transcript.messages.toList
    return status.toUInt32
  | .ready traced image state transcript =>
    stdout.putStr transcript.output
    stdout.flush
    writeMessages transcript.messages.toList
    let outcome ← runToEnd image traced coloured true state
    let (status, messages) := outcome.conclude coloured
    writeMessages messages
    return status.toUInt32

end NestedFun

open NestedFun in
def main (arguments : List String) : IO UInt32 := do
  match Request.ofArguments arguments with
  | .showVersion =>
    IO.print versionLine
    return 0
  | .showHelp =>
    IO.print usage
    return 0
  | .rejected =>
    IO.eprint usage
    return 2
  | .run options => runFile options
