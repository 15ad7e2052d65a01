/-
Character sets for quoted text.

The screen of a Commodore 64 shows letters by numbers of its own.  Quoted
bytes are kept, or changed to the codes of one of its two character sets.
-/
import Assembler6502.Text.Byte

namespace Assembler6502

/-- What happens to the bytes of quoted text. -/
inductive CharacterSet where
  /-- Bytes stay as they are. -/
  | unchanged
  /-- Letters of both cases become the codes 1 to 26. -/
  | upper
  /-- Lower-case letters become the codes 1 to 26, upper-case letters stay. -/
  | lower
deriving DecidableEq, Repr

namespace CharacterSet

/-- The code of one byte. -/
def code (set : CharacterSet) (b : UInt8) : UInt8 :=
  let c := Byte.char b
  if set = unchanged then b
  else if set = upper && c.isUpper then b - 64
  else if c.isLower then b - 96
  else if c == '@' then 0
  else if c == '[' then 27
  else if c == ']' then 29
  else b

def codes (set : CharacterSet) (bytes : List UInt8) : List UInt8 :=
  bytes.map set.code

theorem length_codes (set : CharacterSet) (bytes : List UInt8) :
    (set.codes bytes).length = bytes.length := by
  simp [codes]

end CharacterSet

end Assembler6502
