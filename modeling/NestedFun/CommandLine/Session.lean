import NestedFun.CommandLine.Options
import NestedFun.Compiler
import NestedFun.Listing.Layout
import NestedFun.Listing.Segments
import NestedFun.Listing.Terminal
import NestedFun.Machine.Load
import NestedFun.Machine.Step
import NestedFun.Tree.Dump

namespace NestedFun

/-!
# Sessions

What happens between reading the arguments and the end of the program: which file is read, what is
printed before the program runs, and how its end shows in messages and the exit status.
-/

inductive Severity where
  | info | trace | warning | error
deriving DecidableEq

def Severity.piece : Severity → Piece
  | info => .paint .blue "info"
  | trace => .paint .brightBlack "trace"
  | warning => .paint .yellow "warning"
  | error => .paint .red "error"

/-- A message as it is printed, without the line feed behind it. -/
def messageText (coloured : Bool) (severity : Severity) (text : String) : String :=
  severity.piece.render .standard coloured ++ ": " ++ text

/-- What has been printed: output, and messages one by one. -/
structure Transcript where
  output : String := ""
  messages : Array String := #[]

inductive FileContents where
  | noFile
  | bytes (contents : ByteArray)

inductive Session where
  | finished (status : Nat) (transcript : Transcript)
  | ready (trace : Bool) (image : Image) (state : State) (transcript : Transcript)

def usage : String :=
  "Usage: pinsc [OPTIONS] [SOURCE_FILE]\n\n" ++
  "      --dump-ast        Print the syntax tree\n" ++
  "      --dump-layout     Print frames and variable storage\n" ++
  "      --dump-code       Print the code and data segments\n" ++
  "      --trace           Log every executed instruction to stderr\n" ++
  "      --no-color\n" ++
  "      --verbose         Report what every compilation phase produced\n" ++
  "      --memory <BYTES>  Memory of the machine in bytes [default: 1048576]\n" ++
  "  -h, --help            Print help\n" ++
  "  -V, --version         Print version\n"

def versionLine : String := "pinsc 0.1.0\n"

namespace Transcript

def say (transcript : Transcript) (coloured : Bool) (severity : Severity) (text : String) :
    Transcript :=
  { transcript with messages := transcript.messages.push (messageText coloured severity text) }

def print (transcript : Transcript) (text : String) : Transcript :=
  { transcript with output := transcript.output ++ text }

def fail (transcript : Transcript) (coloured : Bool) (text : String) : Session :=
  .finished 1 (transcript.say coloured .error text)

def abort (transcript : Transcript) (coloured : Bool) (error : InternalError) : Session :=
  .finished 101 (transcript.say coloured .error ("internal compiler error: " ++ error.message))

def inform (transcript : Transcript) (options : Options) (coloured : Bool) (lines : List String) :
    Transcript :=
  if options.verbose then
    lines.foldl (fun transcript line => transcript.say coloured .info line) transcript
  else transcript

end Transcript

def printLists (transcript : Transcript) (options : Options) (coloured : Bool) (program : Program)
    (compiled : Compiled) : Except InternalError Transcript := do
  let mut transcript := transcript
  if options.dumpLayout then
    transcript := transcript.print (← program.layoutListing compiled.layout)
  if options.dumpCode then
    transcript := transcript.print (← compiled.segments.listing coloured)
  return transcript

def prepare (transcript : Transcript) (options : Options) (coloured : Bool) (input : List UInt8)
    (analysis : Analysis) : Session :=
  let transcript := if options.dumpTree then transcript.print analysis.program.dump else transcript
  match analysis.compile with
  | .error error => transcript.abort coloured error
  | .ok compiled =>
    let transcript := transcript.inform options coloured compiled.report
    match printLists transcript options coloured analysis.program compiled with
    | .error error => transcript.abort coloured error
    | .ok transcript =>
      match compiled.segments.load (options.memory.getD defaultMemory) input {} with
      | .error (.internal error) => transcript.abort coloured error
      | .error (.fault kind) => transcript.fail coloured (Fault.message ⟨kind, []⟩)
      | .ok (image, state) =>
        .ready options.trace image state
          (transcript.inform options coloured [loadReport image state])

def openFile (files : String → FileContents) (options : Options) (coloured : Bool)
    (input : List UInt8) : Session :=
  match options.file with
  | none => Transcript.fail {} coloured "Missing source file!"
  | some path =>
    let transcript : Transcript := {}
    let transcript := if options.extra.isEmpty then transcript
      else transcript.say coloured .warning
        ("Ignoring extra arguments: " ++ " ".intercalate options.extra)
    match files path with
    | .noFile => transcript.fail coloured s!"Source file '{path}' does not exist!"
    | .bytes contents =>
      match String.fromUTF8? contents with
      | none => transcript.fail coloured
          s!"Failed to read '{path}': {ConsoleError.invalidText.message}"
      | some text =>
        let source := (Source.mk text (.file path)).withSystemDeclarations
        match analyze source with
        | .error error => transcript.fail coloured ((error.render? source).getD error.message)
        | .ok analysis => prepare transcript options coloured input analysis

/-- The part of an exit code that the operating system sees. -/
def exitStatus (code : Word) : Nat := code.toUInt32.toNat % 256

def Outcome.conclude (coloured : Bool) : Outcome → Nat × List String
  | .running => (0, [])
  | .exited code => (exitStatus code, [])
  | .faulted fault => (1, [messageText coloured .error fault.message])

end NestedFun
