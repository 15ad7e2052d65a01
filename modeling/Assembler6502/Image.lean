/-
Writing the image.

The image of a program is written in one of three formats: the bytes alone, the
bytes behind the load address, or a trace in hexadecimal with a line for each
instruction and each byte of data.  A writer keeps what it is given until it is
full; what no longer fits is cut off and is an error.

* **`Writer.write`** — writes bytes, or the part of them that fits;
* **`Emitter.instruction`**, **`Emitter.data`**, **`Emitter.fill`** — write a
  piece of the image in its format and count its bytes.
-/
import Assembler6502.Diagnostic
import Assembler6502.Text.Byte

namespace Assembler6502

/-! ### Hexadecimal numbers -/

namespace Hexadecimal

/-- Two lower-case digits. -/
def byte (b : UInt8) : List Char :=
  (Nat.toDigits 16 b.toNat).leftpad 2 '0'

/-- At least four lower-case digits.  A number is printed by its bits, so a negative one has eight. -/
def word (v : Int32) : List Char :=
  (Nat.toDigits 16 v.toUInt32.toNat).leftpad 4 '0'

/-- At least four upper-case digits. -/
def upperWord (v : Int32) : List Char :=
  (word v).map Char.toUpper

end Hexadecimal

/-! ### Formats -/

inductive Format where
  /-- The bytes alone. -/
  | raw
  /-- The bytes behind the address that a Commodore 64 loads them to. -/
  | c64
  /-- A trace of addresses and bytes in hexadecimal. -/
  | screen
deriving DecidableEq, Repr

namespace Format

/-- The extension of an output file that is not named. -/
def extension : Format → String
  | c64 => "prg"
  | raw | screen => "bin"

/-- What stands in front of the image. -/
def header (f : Format) (start : UInt16) : List UInt8 :=
  match f with
  | c64 => [start.toUInt8, (start >>> 8).toUInt8]
  | raw | screen => []

/-- A line of the trace. -/
def traceLine (address : Int32) (bytes : List UInt8) : List UInt8 :=
  Byte.ofChars (Hexadecimal.word address ++ bytes.flatMap (fun b => ' ' :: Hexadecimal.byte b) ++
    ['\n'])

/-- The lines of the trace for data, one for each byte. -/
def traceData (address : Int32) : List UInt8 → List UInt8
  | [] => []
  | b :: rest => traceLine address [b] ++ traceData (address + 1) rest

/-- What an instruction adds to the output. -/
def instruction (f : Format) (address : Int32) (bytes : List UInt8) : List UInt8 :=
  match f with
  | screen => traceLine address bytes
  | raw | c64 => bytes

/-- What data adds to the output. -/
def data (f : Format) (address : Int32) (bytes : List UInt8) : List UInt8 :=
  match f with
  | screen => traceData address bytes
  | raw | c64 => bytes

/-- What a gap of `count` bytes adds to the output. -/
def fill (f : Format) (count : Nat) : List UInt8 :=
  match f with
  | screen => []
  | raw | c64 => List.replicate count 0

end Format

/-! ### Writers -/

/-- What was written, and how many bytes still fit if there is a bound. -/
structure Writer where
  written : List UInt8
  room : Option Nat
deriving DecidableEq, Repr

namespace Writer

/-- An empty writer; without a capacity it is never full. -/
def ofCapacity (capacity : Option Nat) : Writer := ⟨[], capacity⟩

/-- Writes bytes; if they do not all fit, those that fit are written. -/
def write (bytes : List UInt8) : EStateM FileError Writer Unit := fun w =>
  match w.room with
  | none => .ok () ⟨w.written ++ bytes, none⟩
  | some n =>
    if bytes.length ≤ n then .ok () ⟨w.written ++ bytes, some (n - bytes.length)⟩
    else .error .writerFull ⟨w.written ++ bytes.take n, some 0⟩

end Writer

/-! ### Emitters -/

/-- A writer with its format; `size` counts the bytes of the image without the header. -/
structure Emitter where
  format : Format
  writer : Writer
  size : Nat
deriving DecidableEq, Repr

namespace Emitter

def start (format : Format) (writer : Writer) : Emitter := ⟨format, writer, 0⟩

/-- Writes output that stands for `count` bytes of the image. -/
def put (output : List UInt8) (count : Nat) : EStateM FileError Emitter Unit := fun e =>
  match Writer.write output e.writer with
  | .ok _ writer => .ok () { e with writer, size := e.size + count }
  | .error error writer => .error error { e with writer }

/-- Writes the header. -/
def begin (start : UInt16) : EStateM FileError Emitter Unit := do
  put ((← get).format.header start) 0

def instruction (address : Int32) (bytes : List UInt8) : EStateM FileError Emitter Unit := do
  put ((← get).format.instruction address bytes) bytes.length

def data (address : Int32) (bytes : List UInt8) : EStateM FileError Emitter Unit := do
  put ((← get).format.data address bytes) bytes.length

/-- Writes a gap of zero bytes. -/
def fill (count : Nat) : EStateM FileError Emitter Unit := do
  put ((← get).format.fill count) count

end Emitter

end Assembler6502
