/-
The command line.

The program assembles a file into another file, or to the standard output if a
trace is asked for and no file is named.  It can write a listing of the names,
and it can evaluate a file with one expression a line.

* **`CommandLine.run`** — the exit code, what is printed and the disk after the
  run, for any arguments and any disk.

Design notes.  A run that fails prints its diagnostics and ends with code 1;
faults in the arguments end with code 2.  A trace on the standard output stays
printed if the run fails later.
-/
import Assembler6502.CommandLine.Arguments
import Assembler6502.Session
import Assembler6502.Text.Utf8

namespace Assembler6502

namespace CommandLine

/-- What a run of the program leaves behind. -/
structure Outcome where
  code : Nat := 0
  /-- The standard output. -/
  output : List UInt8 := []
  /-- The text on the standard error. -/
  errors : String := ""
  disk : Disk
  /-- Where included files were looked for in vain. -/
  missing : List String := []

/-- The outcome of a run that ends with a message. -/
def failed (disk : Disk) (message : String) : Outcome where
  code := 1
  errors := message ++ "\n"
  disk := disk

/-- What is printed about a run that failed. -/
def report (failure : Failure) : String :=
  match failure with
  | .rejected diagnostics =>
    String.join (diagnostics.map fun d => d.message ++ "\n") ++ failure.message ++ "\n"
  | .stopped fault => fault.message ++ "\n"

/-- Where the file of a diagnostic would be, if the diagnostic says that it was not found. -/
def places (d : Diagnostic) : List String :=
  match d.cause with
  | .statement (.cannotOpen name) => [name, Path.join (Path.parent d.location.file) name]
  | _ => []

/-- The files that a run did not find. -/
def missing : Failure → List String
  | .rejected diagnostics => diagnostics.flatMap places
  | .stopped _ => []

/-- The outcome of a run that failed. -/
def rejected (disk : Disk) (output : List UInt8) (failure : Failure) : Outcome where
  code := 1
  output := output
  errors := report failure
  disk := disk
  missing := missing failure

/-! ### Evaluating -/

/-- A line of a calculation: its number and its value in hexadecimal and in decimal. -/
def valueLine (entry : Nat × Int32) : String :=
  toString entry.1 ++ ": $" ++ String.ofList (Hexadecimal.word entry.2) ++
    " (" ++ toString entry.2.toInt ++ ")\n"

/-- Evaluates a file, which has to be text. -/
def evaluate (disk : Disk) (input : String) (options : Options) : Outcome :=
  match disk.read input with
  | .error _ => failed disk ("cannot read '" ++ input ++ "'")
  | .ok bytes =>
    match Utf8.decode? bytes with
    | none => failed disk ("cannot read '" ++ input ++ "'")
    | some _ =>
      match Session.evaluateLines input bytes (.start options) with
      | .error d _ => failed disk d.message
      | .ok values _ => { output := Byte.ofString (String.join (values.map valueLine)), disk }

/-! ### Assembling -/

/-- Writes the listing, if a file for it is named. -/
def writeListing (path : Option String) (session : Session) (outcome : Outcome) : Outcome :=
  match path with
  | none => outcome
  | some path =>
    match outcome.disk.target path with
    | .error _ =>
      { outcome with
        code := 1
        errors := outcome.errors ++ "cannot create symbol file '" ++ path ++ "'\n" }
    | .ok place =>
      let listing := Byte.ofString session.listing
      match outcome.disk.store place listing with
      | .ok disk => { outcome with disk }
      | .error error =>
        { outcome with
          code := 1
          errors := outcome.errors ++ error.message ++ "\n"
          disk := outcome.disk.spill place listing }

/-- Assembles to the standard output. -/
def assembleToOutput (disk : Disk) (input : String) (options : Options) (symbols : Option String) :
    Outcome :=
  match Session.assemble disk (.file input) ⟨.start options, .ofCapacity none⟩ with
  | .error failure job => rejected disk job.writer.written failure
  | .ok _ job => writeListing symbols job.session { output := job.writer.written, disk }

/-- Assembles to a file. -/
def assembleToFile (disk : Disk) (input output : String) (options : Options)
    (symbols : Option String) : Outcome :=
  if disk.samePlace input output then
    failed disk ("input and output file must differ: '" ++ output ++ "'")
  else
    match Session.assembleToPath input output (.start options, disk) with
    | .error failure (_, disk) => rejected disk [] failure
    | .ok _ (session, disk) => writeListing symbols session { disk }

/-! ### Running -/

def Arguments.options (a : Arguments) : Options where
  format := a.format.getD .raw
  characters := a.characters.getD .unchanged

/-- Does what the arguments ask for. -/
def execute (disk : Disk) (input : String) (a : Arguments) : Outcome :=
  if !disk.isFile input then failed disk ("cannot open file '" ++ input ++ "'")
  else if a.evaluate then evaluate disk input a.options
  else
    match a.output, a.options.format with
    | none, .screen => assembleToOutput disk input a.options a.symbols
    | none, format =>
      assembleToFile disk input (Path.withExtension input format.extension) a.options a.symbols
    | some output, _ => assembleToFile disk input output a.options a.symbols

def versionText : String := "asm65 1.0.0\n"

def usage : String := "Usage: asm65 [OPTIONS] <INPUT>\n"

def helpText : String :=
  "Two-pass cross-assembler for the 6502\n\n" ++ usage ++ "\n" ++
  "  -f, --format <FORMAT>        screen, raw or c64 [default: raw]\n" ++
  "  -o, --output <FILE>          output file\n" ++
  "  -t, --translate <TRANSLATE>  upper, lower or none [default: none]\n" ++
  "  -l, --log-level <LOG_LEVEL>  error, warn, info, debug or trace [default: warn]\n" ++
  "      --symbols <FILE>         write every label and assigned symbol to a file\n" ++
  "      --eval                   evaluate one expression per input line\n" ++
  "  -h, --help                   print help\n" ++
  "  -V, --version                print version\n"

/-- Runs the program. -/
def run (arguments : List String) (disk : Disk) : Outcome :=
  match Arguments.parse arguments with
  | .error (.usage error) =>
    { code := 2, errors := "error: " ++ error.message ++ "\n\n" ++ usage, disk }
  | .error .help => { output := Byte.ofString helpText, disk }
  | .error .version => { output := Byte.ofString versionText, disk }
  | .ok (input, a) => execute disk input a

end CommandLine

end Assembler6502
