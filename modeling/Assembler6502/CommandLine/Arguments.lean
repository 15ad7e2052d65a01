/-
The arguments of the command line.

Options have a long name, and most of them a letter.  A value stands behind its
option, or is attached to it: `-f c64`, `-fc64`, `-f=c64`, `--format c64` and
`--format=c64` are the same.  Behind `--` every argument is a file.

* **`Arguments.parse`** — what the arguments ask for, or the first fault in
  them.

Design notes.  Arguments are read from left to right, and the first one that is
wrong or asks for help or for the version decides.
-/
import Assembler6502.Image
import Assembler6502.Text.CharacterSet
import Assembler6502.Text.Radix

namespace Assembler6502

namespace CommandLine

/-- Options by what they set or ask for. -/
inductive Choice where
  | format
  | output
  | characters
  | logLevel
  | symbols
  | evaluate
  | help
  | version
deriving DecidableEq, Repr

namespace Choice

def all : List Choice :=
  [format, output, characters, logLevel, symbols, evaluate, help, version]

def name : Choice → String
  | format => "format"
  | output => "output"
  | characters => "translate"
  | logLevel => "log-level"
  | symbols => "symbols"
  | evaluate => "eval"
  | help => "help"
  | version => "version"

def letter? : Choice → Option Char
  | format => some 'f'
  | output => some 'o'
  | characters => some 't'
  | logLevel => some 'l'
  | symbols => none
  | evaluate => none
  | help => some 'h'
  | version => some 'V'

def takesValue : Choice → Bool
  | format | output | characters | logLevel | symbols => true
  | evaluate | help | version => false

def ofName? (s : String) : Option Choice :=
  all.find? fun choice => choice.name = s

def ofLetter? (c : Char) : Option Choice :=
  all.find? fun choice => choice.letter? = some c

end Choice

/-- How much is logged. -/
inductive LogLevel where
  | error
  | warn
  | info
  | debug
  | trace
deriving DecidableEq, Repr

/-- A level by its name in any case, or by its number from one to five. -/
def LogLevel.ofText? (s : String) : Option LogLevel :=
  match s.toLower with
  | "error" => some error
  | "warn" => some warn
  | "info" => some info
  | "debug" => some debug
  | "trace" => some trace
  | _ =>
    match Radix.decimal.natural? (digits s.toList) with
    | some 1 => some error
    | some 2 => some warn
    | some 3 => some info
    | some 4 => some debug
    | some 5 => some trace
    | _ => none
where
  /-- A number may have a plus in front. -/
  digits : List Char → List Char
    | '+' :: rest => rest
    | cs => cs

def formatOf? : String → Option Format
  | "screen" => some .screen
  | "raw" => some .raw
  | "c64" => some .c64
  | _ => none

def charactersOf? : String → Option CharacterSet
  | "upper" => some .upper
  | "lower" => some .lower
  | "none" => some .unchanged
  | _ => none

/-- A path is not empty. -/
def pathOf? (s : String) : Option String :=
  if s = "" then none else some s

/-- What is wrong with arguments. -/
inductive UsageError where
  | unknown (argument : String)
  | missingValue (choice : Choice)
  | unneededValue (choice : Choice)
  | badValue (choice : Choice) (value : String)
  | repeated (choice : Choice)
  | badInput
  | missingInput
deriving DecidableEq, Repr

def UsageError.message : UsageError → String
  | unknown argument => s!"unexpected argument '{argument}' found"
  | missingValue choice => s!"a value is required for '--{choice.name}'"
  | unneededValue choice => s!"no value is allowed for '--{choice.name}'"
  | badValue choice value => s!"invalid value '{value}' for '--{choice.name}'"
  | repeated choice => s!"the argument '--{choice.name}' cannot be used multiple times"
  | badInput => "a value is required for 'INPUT'"
  | missingInput => "the argument 'INPUT' was not provided"

/-- Why reading arguments stops before their end. -/
inductive Interruption where
  | usage (error : UsageError)
  | help
  | version
deriving DecidableEq, Repr

/-- What the arguments read so far set. -/
structure Arguments where
  input : Option String := none
  format : Option Format := none
  output : Option String := none
  characters : Option CharacterSet := none
  logLevel : Option LogLevel := none
  symbols : Option String := none
  evaluate : Bool := false
deriving DecidableEq, Repr

namespace Arguments

/-- Fails with a fault of the arguments. -/
def refuse {α : Type} (error : UsageError) : Except Interruption α :=
  .error (.usage error)

/-- The value of an option that was not set before. -/
def once {α : Type} (choice : Choice) (before : Option α) (read : String → Option α)
    (value : String) : Except Interruption (Option α) :=
  match before, read value with
  | none, some v => .ok (some v)
  | none, none => refuse (.badValue choice value)
  | some _, _ => refuse (.repeated choice)

/-- Sets an option to a value. -/
def assign (a : Arguments) (choice : Choice) (value : String) : Except Interruption Arguments :=
  match choice with
  | .format => do return { a with format := ← once choice a.format formatOf? value }
  | .output => do return { a with output := ← once choice a.output pathOf? value }
  | .characters => do return { a with characters := ← once choice a.characters charactersOf? value }
  | .logLevel => do return { a with logLevel := ← once choice a.logLevel LogLevel.ofText? value }
  | .symbols => do return { a with symbols := ← once choice a.symbols pathOf? value }
  | .evaluate | .help | .version => refuse (.unneededValue choice)

/-- Sets an option that has no value. -/
def mark (a : Arguments) (choice : Choice) : Except Interruption Arguments :=
  match choice with
  | .evaluate => if a.evaluate then refuse (.repeated choice) else .ok { a with evaluate := true }
  | .help => .error .help
  | .version => .error .version
  | .format | .output | .characters | .logLevel | .symbols => refuse (.missingValue choice)

/-- Takes an argument for the file to read. -/
def positional (a : Arguments) (argument : String) : Except Interruption Arguments :=
  match a.input, pathOf? argument with
  | none, some path => .ok { a with input := some path }
  | none, none => refuse .badInput
  | some _, _ => refuse (.unknown argument)

/-- An argument by its shape. -/
inductive Shape where
  /-- The mark that ends the options. -/
  | escape
  | option (choice : Choice) (attached : Option String)
  | unknown
  | plain

/-- The text behind an equals sign. -/
def behindEquals : List Char → List Char
  | '=' :: rest => rest
  | cs => cs

/-- An argument with two dashes in front, read behind them. -/
def longShape (cs : List Char) : Shape :=
  match Choice.ofName? (String.ofList (cs.takeWhile (· ≠ '='))) with
  | none => .unknown
  | some choice =>
    match cs.dropWhile (· ≠ '=') with
    | [] => .option choice none
    | _ :: value => .option choice (some (String.ofList value))

/-- An argument with one dash in front, read behind it.  Behind an option without a value would
stand another one, but each of these ends the reading. -/
def shortShape (c : Char) (rest : List Char) : Shape :=
  match Choice.ofLetter? c with
  | none => .unknown
  | some choice =>
    if rest = [] || !choice.takesValue then .option choice none
    else .option choice (some (String.ofList (behindEquals rest)))

def shape (argument : String) : Shape :=
  match argument.toList with
  | ['-', '-'] => .escape
  | '-' :: '-' :: cs => longShape cs
  | '-' :: c :: rest => shortShape c rest
  | _ => .plain

/-- Whether an argument can be the value of the option before it. -/
def isValue (argument : String) : Bool :=
  match shape argument with
  | .plain => true
  | .escape | .option _ _ | .unknown => false

/-- Reads arguments behind those read so far. -/
def read (a : Arguments) : List String → Except Interruption Arguments
  | [] => .ok a
  | argument :: rest =>
    match shape argument with
    | .escape => rest.foldlM positional a
    | .unknown => refuse (.unknown argument)
    | .plain => do (← a.positional argument).read rest
    | .option choice (some value) => do (← a.assign choice value).read rest
    | .option choice none =>
      if choice.takesValue then
        match rest with
        | [] => refuse (.missingValue choice)
        | value :: rest =>
          if isValue value then do (← a.assign choice value).read rest
          else refuse (.missingValue choice)
      else do (← a.mark choice).read rest

/-- Reads all arguments; one of them names the file to read. -/
def parse (arguments : List String) : Except Interruption (String × Arguments) := do
  let a ← ({} : Arguments).read arguments
  match a.input with
  | some input => return (input, a)
  | none => refuse .missingInput

end Arguments

end CommandLine

end Assembler6502
