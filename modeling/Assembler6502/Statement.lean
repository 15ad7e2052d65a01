/-
Statements.

A source is a sequence of statements, one to a line but for labels, which may
stand in front of another statement.  A statement holds what is left to do once
its operands are evaluated.

* **`Mnemonic.pageMode`** — the zero-page form of an operand, or its absolute
  form.
-/
import Assembler6502.Machine.Instruction

namespace Assembler6502

inductive Statement where
  | instruction (i : Instruction)
  /-- Goes on at another address. -/
  | origin (address : Int32)
  | includeFile (name : String)
  /-- Marks the address without a name. -/
  | anonymousLabel
  | bytes (data : List UInt8)
  | words (data : List UInt16)
  | label (name : String)
  | assign (name : String) (value : Int32) (relocatable : Bool)
  | openScope (name : String)
  | closeScope
  /-- A token that begins no statement. -/
  | undefined
  | endOfInput
deriving DecidableEq, Repr

/-- Whether a number is one byte. -/
def fitsByte (v : Int32) : Bool :=
  0 ≤ v && v ≤ 0xff

/-- Whether a number is two bytes. -/
def fitsWord (v : Int32) : Bool :=
  0 ≤ v && v ≤ 0xffff

/-- The mode of an operand written without parentheses: the absolute form if the high byte of the
operand is not zero or the mnemonic has that form only, and the zero-page form otherwise. -/
def Mnemonic.pageMode (m : Mnemonic) (short : Mode) (operand : Int32) : Mode :=
  match short.widened with
  | none => short
  | some long =>
    if operand &&& 0xff00 ≠ 0 ∨
        (m.modes.contains short = false ∧ m.modes.contains long = true) then long
    else short

/-- The bytes of words, the low byte first. -/
def wordBytes (words : List UInt16) : List UInt8 :=
  words.flatMap fun (w : UInt16) => [w.toUInt8, (w >>> 8).toUInt8]

end Assembler6502
