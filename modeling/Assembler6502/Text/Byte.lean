/-
Source bytes.

Source text is a list of bytes.  A byte is looked at as the character of the
same number, so letters, digits and punctuation are those of ASCII and every
byte of a longer encoding is a character of its own.  Outside quotes the
letters are read in lower case.

* **`Byte.lines`** — the lines of a text, where a line feed, a carriage return
  and the pair of both each end one line.
-/
namespace Assembler6502

namespace Byte

/-- The character of the same number. -/
def char (b : UInt8) : Char :=
  Char.ofNat b.toNat

/-- The character of the same number, letters in lower case. -/
def folded (b : UInt8) : Char :=
  (char b).toLower

/-- Blanks that separate tokens: space, tab and form feed. -/
def isBlank (b : UInt8) : Bool :=
  b == 0x20 || b == 0x09 || b == 0x0c

/-- Blanks that may stand between the mark of a radix and its digits. -/
def isSpacing (b : UInt8) : Bool :=
  b == 0x20 || b == 0x09

/-- Line feed and carriage return. -/
def isLineEnd (b : UInt8) : Bool :=
  b == 0x0a || b == 0x0d

/-- A comment runs from one of these to the end of the line. -/
def startsComment (b : UInt8) : Bool :=
  char b == ';' || char b == '!'

/-- A byte that may stand between quotes. -/
def isQuotable (b : UInt8) : Bool :=
  !isLineEnd b && char b != '"'

/-- Letters, digits and the underscore. -/
def isWord (b : UInt8) : Bool :=
  (char b).isAlphanum || char b == '_'

/-- The bytes of a text that has characters below 256 only. -/
def ofChars (cs : List Char) : List UInt8 :=
  cs.map Char.toUInt8

/-- The characters of the bytes, letters in lower case. -/
def foldedText (bytes : List UInt8) : String :=
  String.ofList (bytes.map folded)

/-- The bytes of a text in UTF-8. -/
def ofString (s : String) : List UInt8 :=
  s.toUTF8.data.toList

/-! ### Lines -/

/-- The rest of a text after one line end, if it starts with one. -/
def dropLineEnd : List UInt8 → List UInt8
  | 0x0d :: 0x0a :: rest => rest
  | b :: rest => if isLineEnd b then rest else b :: rest
  | [] => []

/-- The lines of a text, without their ends. -/
def lines : List UInt8 → List (List UInt8)
  | [] => [[]]
  | 0x0d :: 0x0a :: rest => [] :: lines rest
  | b :: rest =>
    if isLineEnd b then [] :: lines rest
    else
      match lines rest with
      | [] => [[b]]
      | line :: others => (b :: line) :: others

/-- The line of that number, counted from one; empty where the text has no such line. -/
def line (bytes : List UInt8) (number : Nat) : List UInt8 :=
  if number = 0 then [] else ((lines bytes)[number - 1]?).getD []

end Byte

end Assembler6502
