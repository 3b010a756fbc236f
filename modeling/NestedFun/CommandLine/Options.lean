import NestedFun.Text.Basic

namespace NestedFun

/-!
# Command line arguments

Flags may stand anywhere before a `--`; the first other argument is the file to run, and further
ones are ignored with a warning. No flag may be given twice.
-/

structure Options where
  dumpTree : Bool := false
  dumpLayout : Bool := false
  dumpCode : Bool := false
  trace : Bool := false
  noColor : Bool := false
  verbose : Bool := false
  memory : Option Nat := none
  file : Option String := none
  extra : List String := []

inductive Request where
  | run (options : Options)
  | showVersion
  | showHelp
  | rejected

/-- The memory of a machine whose size is not given: 2 ^ 20 bytes. -/
def defaultMemory : Nat := 1048576

namespace Options

/-- The number that a numeral spells if it fits 64 bits, so if it is less than 2 ^ 64. -/
def ofNumeral? (s : String) : Option Nat :=
  let digits := match s.toList with
    | '+' :: digits => digits
    | digits => digits
  (decimalValue? digits).filter (· < 18446744073709551616)

/-- Adds an argument that is no flag. A file needs a name. -/
def addPositional? (options : Options) (argument : String) : Option Options :=
  match options.file with
  | some _ => some { options with extra := options.extra ++ [argument] }
  | none => if argument = "" then none else some { options with file := some argument }

def setFlag? (options : Options) : String → Option Options
  | "dump-ast" => if options.dumpTree then none else some { options with dumpTree := true }
  | "dump-layout" => if options.dumpLayout then none else some { options with dumpLayout := true }
  | "dump-code" => if options.dumpCode then none else some { options with dumpCode := true }
  | "trace" => if options.trace then none else some { options with trace := true }
  | "no-color" => if options.noColor then none else some { options with noColor := true }
  | "verbose" => if options.verbose then none else some { options with verbose := true }
  | _ => none

def setMemory? (options : Options) (value : String) : Option Options :=
  match options.memory, ofNumeral? value with
  | none, some size => some { options with memory := some size }
  | _, _ => none

def isFlag (argument : String) : Bool :=
  argument.toList.head? = some '-' && argument ≠ "-"

/-- A flag's name and the value attached to it by an equals sign, if any. -/
def splitFlag (text : List Char) : String × Option String :=
  let name := String.ofList (text.takeWhile (· ≠ '='))
  match text.dropWhile (· ≠ '=') with
  | [] => (name, none)
  | _ :: value => (name, some (String.ofList value))

/-- Reads arguments from left to right, behind a `--` without regard to flags. -/
def read (options : Options) : Bool → List String → Request
  | _, [] => .run options
  | true, argument :: arguments =>
    match options.addPositional? argument with
    | some options => read options true arguments
    | none => .rejected
  | false, argument :: arguments =>
    match argument.toList with
    | ['-', '-'] => read options true arguments
    | '-' :: '-' :: text =>
      match splitFlag text with
      | ("version", none) => .showVersion
      | ("help", none) => .showHelp
      | ("memory", some value) =>
        match options.setMemory? value with
        | some options => read options false arguments
        | none => .rejected
      | ("memory", none) =>
        match arguments with
        | [] => .rejected
        | value :: arguments =>
          if isFlag value then .rejected
          else
            match options.setMemory? value with
            | some options => read options false arguments
            | none => .rejected
      | (name, none) =>
        match options.setFlag? name with
        | some options => read options false arguments
        | none => .rejected
      | (_, some _) => .rejected
    | '-' :: 'V' :: _ => .showVersion
    | '-' :: 'h' :: _ => .showHelp
    | '-' :: _ :: _ => .rejected
    | _ =>
      match options.addPositional? argument with
      | some options => read options false arguments
      | none => .rejected

end Options

def Request.ofArguments (arguments : List String) : Request :=
  Options.read {} false arguments

end NestedFun
