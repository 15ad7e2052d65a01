/-
What can go wrong, and how it is reported.

A scan error arises while bytes are read as tokens, a statement error while a
statement is read or carried out.  Both are reported with the place they
belong to.  A run ends early only for a file error or an internal error; all
others are collected, and the run goes on with the next statement.

* **`Diagnostic.message`** — the error, the file, the line number and the line;
* **`Failure.message`** — how a run that failed is reported.
-/
import Assembler6502.Expression.Operator
import Assembler6502.Machine.Mnemonic
import Assembler6502.Text.Radix

namespace Assembler6502

/-- A place in a source: the name it is reported under, line and column counted from one, and
the text of the line. -/
structure Location where
  file : String
  line : Nat
  column : Nat
  text : String
deriving DecidableEq, Repr

/-- Errors in the bytes of one token. -/
inductive ScanError where
  | malformedNumber (digits : String)
  | missingDigits (radix : Radix)
  | illegalStart (c : Char)
  | unterminatedQuote
  | emptyQuote
deriving DecidableEq, Repr

/-- Faults that no source can cause: a stack program that does not come from an expression, or a
permitted mode without an opcode. -/
inductive InternalError where
  | underflow
  | leftover (count : Nat)
  | operator (op : Operator)
  | encoding (mnemonic : Mnemonic) (mode : Mode)
deriving DecidableEq, Repr

/-- Errors of a statement. -/
inductive StatementError where
  | illegalMode
  | numberTooLarge
  | needZeroPage
  | branchTooFarBackward
  | branchTooFarForward
  | labelRedefinition (name : String)
  | symbolRedefinition (name : String)
  | undefinedName (name : String)
  | unmatchedScopeEnd
  | nestingLimit (levels : Nat)
  | unclosedScope
  | backwardOrigin
  | zeroPageOrigin
  | divisionByZero
  | lowByteOfHighByte
  | highByteOfLowByte
  | unresolvedForward
  | unresolvedBackward
  | undefinedStatement
  | expectedEnd
  | expected (what : String)
  | labelNotInFirstColumn
  | cannotOpen (file : String)
  | includeTooDeep (levels : Nat)
  | internal (fault : InternalError)
deriving DecidableEq, Repr

/-- Errors of files and writers. -/
inductive FileError where
  | notFound
  | notDirectory
  | isDirectory
  | tooManyLinks
  | denied
  | full
  | writerFull
deriving DecidableEq, Repr

/-! ### Texts -/

def ScanError.message : ScanError → String
  | malformedNumber digits => s!"malformed numeric literal '{digits}'"
  | missingDigits radix => s!"constant must follow {radix.name} radix"
  | illegalStart c => s!"illegal char '{c}' at start of identifier"
  | unterminatedQuote => "unterminated character sequence"
  | emptyQuote => "empty character sequence"

def InternalError.message : InternalError → String
  | underflow => "expression stack underflow"
  | leftover count => s!"expression left {count} values on the stack"
  | operator op => s!"operator {op.name} in expression"
  | encoding mnemonic mode => s!"no encoding for {mnemonic.name} in {mode.name} mode"

def StatementError.message : StatementError → String
  | illegalMode => "illegal addressing mode"
  | numberTooLarge => "number too large"
  | needZeroPage => "need 8 bits for zero page addressing"
  | branchTooFarBackward => "branch too far (max 126 bytes backwards)"
  | branchTooFarForward => "branch too far (max 128 bytes forward)"
  | labelRedefinition name => s!"label redefinition: {name}"
  | symbolRedefinition name => s!"symbol redefinition: {name}"
  | undefinedName name => s!"undefined identifier '{name}'"
  | unmatchedScopeEnd => "found unmatched end of procedure"
  | nestingLimit levels => s!"lexical nesting limit of {levels} levels reached"
  | unclosedScope => "scope is not zero after pass 1, did you forget to end a procedure?"
  | backwardOrigin => "cannot set new origin backwards in memory"
  | zeroPageOrigin => "assembly to zero page not supported"
  | divisionByZero => "division by zero"
  | lowByteOfHighByte => "ambiguous byte operator: low byte of a high byte"
  | highByteOfLowByte => "ambiguous byte operator: high byte of a low byte"
  | unresolvedForward => "cannot resolve forward reference to temporary label"
  | unresolvedBackward => "cannot resolve backward reference to temporary label"
  | undefinedStatement => "undefined statement"
  | expectedEnd => "expected end of statement"
  | expected what => s!"expected {what}"
  | labelNotInFirstColumn => "label without colon must be on column 1"
  | cannotOpen file => s!"cannot open file '{file}'"
  | includeTooDeep levels => s!"include files nested deeper than {levels} levels"
  | internal fault => s!"internal assembler error: {fault.message}"

def FileError.message : FileError → String
  | notFound => "No such file or directory (os error 2)"
  | notDirectory => "Not a directory (os error 20)"
  | isDirectory => "Is a directory (os error 21)"
  | tooManyLinks => "Too many levels of symbolic links (os error 40)"
  | denied => "Permission denied (os error 13)"
  | full => "No space left on device (os error 28)"
  | writerFull => "writer full"

/-! ### Diagnostics and failures -/

/-- The error that a diagnostic reports. -/
inductive Cause where
  | scan (error : ScanError)
  | statement (error : StatementError)
deriving DecidableEq, Repr

def Cause.message : Cause → String
  | scan error => error.message
  | statement error => error.message

/-- An error at its place. -/
structure Diagnostic where
  cause : Cause
  location : Location
deriving DecidableEq, Repr

def Diagnostic.message (d : Diagnostic) : String :=
  s!"{d.cause.message} in file {d.location.file}, line {d.location.line}:\n{d.location.text}"

def StatementError.isInternal : StatementError → Bool
  | internal _ => true
  | _ => false

/-- Internal errors stop a run. -/
def Diagnostic.isFatal (d : Diagnostic) : Bool :=
  match d.cause with
  | .scan _ => false
  | .statement error => error.isInternal

/-- What a single step of a run can end with. -/
inductive Fault where
  | diagnostic (d : Diagnostic)
  | file (error : FileError)
deriving DecidableEq, Repr

/-- Whether the run stops at once. -/
def Fault.isFatal : Fault → Bool
  | diagnostic d => d.isFatal
  | file _ => true

def Fault.message : Fault → String
  | diagnostic d => d.message
  | file error => s!"IO error: {error.message}"

/-- How a run fails: it stops, or it reaches the end of a pass with errors collected. -/
inductive Failure where
  | stopped (fault : Fault)
  | rejected (diagnostics : List Diagnostic)
deriving DecidableEq, Repr

def Failure.message : Failure → String
  | stopped fault => fault.message
  | rejected diagnostics => s!"assembly failed with {diagnostics.length} error(s)"

end Assembler6502
