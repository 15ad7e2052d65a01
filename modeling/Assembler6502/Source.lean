/-
Sources and cursors.

A source is a list of bytes under a name.  A cursor stands in a source: it
holds the bytes that are still to be read, its line and column, and where the
statement that is being read began.

* **`Cursor.skipWhile`** — moves over bytes of a kind within a line;
* **`Cursor.skipBlankLines`** — moves to the first byte that is neither blank
  nor comment nor line end;
* **`Cursor.newline`** — moves over one line end;
* **`Cursor.recover`** — moves to the next line after a statement that failed.

Each move leaves a tail of the bytes that were to be read.

Design notes.  A cursor is `fresh` from a line end that was read as a token
until the next token, and at the start.  Line ends met while it is fresh belong to
empty lines and are passed over.
-/
import Assembler6502.Diagnostic
import Assembler6502.Text.Byte
import Assembler6502.Text.Utf8

namespace Assembler6502

/-- Line and column, counted from one; a column is a byte. -/
structure Position where
  line : Nat
  column : Nat
deriving DecidableEq, Repr

namespace Position

def start : Position := ⟨1, 1⟩

/-- The position `n` bytes further on the line. -/
def right (p : Position) (n : Nat) : Position := ⟨p.line, p.column + n⟩

/-- The start of the next line. -/
def nextLine (p : Position) : Position := ⟨p.line + 1, 1⟩

end Position

/-- A text to read; `path` is where it was read from, if it was a file. -/
structure Source where
  name : String
  path : Option String
  bytes : List UInt8
deriving DecidableEq, Repr

/-- A place in a source, with the line it is on. -/
def Source.location (s : Source) (p : Position) : Location :=
  ⟨s.name, p.line, p.column, Utf8.decode (Byte.line s.bytes p.line)⟩

structure Cursor where
  rest : List UInt8
  position : Position
  fresh : Bool
  statement : Position
deriving DecidableEq, Repr

namespace Cursor

/-- The cursor at the start of a text. -/
def ofBytes (bytes : List UInt8) : Cursor :=
  ⟨bytes, .start, true, .start⟩

/-- Moves over `n` bytes of the line. -/
def skip (c : Cursor) (n : Nat) : Cursor :=
  { c with rest := c.rest.drop n, position := c.position.right n }

/-- Moves over the bytes that satisfy `p`. -/
def skipWhile (c : Cursor) (p : UInt8 → Bool) : Cursor :=
  { c with
    rest := c.rest.dropWhile p
    position := c.position.right (c.rest.takeWhile p).length }

/-- Moves to the end of the line. -/
def skipLine (c : Cursor) : Cursor :=
  c.skipWhile fun b => !Byte.isLineEnd b

/-- Moves over one line end. -/
def newline (c : Cursor) : Cursor :=
  { c with rest := Byte.dropLineEnd c.rest, position := c.position.nextLine }

/-- Whether the next byte satisfies `p`. -/
def sees (c : Cursor) (p : UInt8 → Bool) : Bool :=
  c.rest.head?.any p

/-- Moves over blanks and a comment, within the line. -/
def skipBlanks (c : Cursor) : Cursor :=
  let c := c.skipWhile Byte.isBlank
  if c.sees Byte.startsComment then c.skipLine else c

/-- The bytes after blanks, comments and empty lines, with their position. -/
def afterBlankLines : (comment : Bool) → List UInt8 → Position → List UInt8 × Position
  | _, [], p => ([], p)
  | _, 0x0d :: 0x0a :: rest, p => afterBlankLines false rest p.nextLine
  | comment, b :: rest, p =>
    if Byte.isLineEnd b then afterBlankLines false rest p.nextLine
    else if comment || Byte.isBlank b then afterBlankLines comment rest (p.right 1)
    else if Byte.startsComment b then afterBlankLines true rest (p.right 1)
    else (b :: rest, p)

/-- Moves over blanks, comments and empty lines. -/
def skipBlankLines (c : Cursor) : Cursor :=
  let (rest, position) := afterBlankLines false c.rest c.position
  { c with rest, position }

/-- Moves over what is left of a statement that failed, so that reading goes on with the next
line. -/
def recover (c : Cursor) : Cursor :=
  if c.fresh then c
  else
    let ended := c.skipLine
    { (if ended.rest.isEmpty then ended else ended.newline) with fresh := true }

/-! ### Moves leave a tail -/

theorem dropLineEnd_suffix (bytes : List UInt8) : Byte.dropLineEnd bytes <:+ bytes := by
  unfold Byte.dropLineEnd
  split
  · exact List.suffix_append [0x0d, 0x0a] _
  · split
    · exact List.suffix_cons ..
    · exact List.suffix_refl _
  · exact List.suffix_refl _

theorem skip_suffix (c : Cursor) (n : Nat) : (c.skip n).rest <:+ c.rest :=
  List.drop_suffix n c.rest

theorem skipWhile_suffix (c : Cursor) (p : UInt8 → Bool) : (c.skipWhile p).rest <:+ c.rest :=
  List.dropWhile_suffix p

theorem newline_suffix (c : Cursor) : c.newline.rest <:+ c.rest :=
  dropLineEnd_suffix c.rest

theorem skipBlanks_suffix (c : Cursor) : c.skipBlanks.rest <:+ c.rest := by
  unfold skipBlanks
  dsimp only
  split
  · exact (skipWhile_suffix _ _).trans (skipWhile_suffix _ _)
  · exact skipWhile_suffix _ _

theorem afterBlankLines_suffix (comment : Bool) (bytes : List UInt8) (p : Position) :
    (afterBlankLines comment bytes p).1 <:+ bytes := by
  fun_induction afterBlankLines comment bytes p with
  | case1 => exact List.suffix_refl _
  | case2 _ _ _ ih => exact ih.trans (List.suffix_append [0x0d, 0x0a] _)
  | case3 _ _ _ _ _ _ ih => exact ih.trans (List.suffix_cons ..)
  | case4 _ _ _ _ _ _ _ ih => exact ih.trans (List.suffix_cons ..)
  | case5 _ _ _ _ _ _ _ _ ih => exact ih.trans (List.suffix_cons ..)
  | case6 => exact List.suffix_refl _

theorem skipBlankLines_suffix (c : Cursor) : c.skipBlankLines.rest <:+ c.rest :=
  afterBlankLines_suffix false c.rest c.position

theorem recover_suffix (c : Cursor) : c.recover.rest <:+ c.rest := by
  unfold recover
  split
  · exact List.suffix_refl _
  · dsimp only
    split
    · exact skipWhile_suffix _ _
    · exact (newline_suffix _).trans (skipWhile_suffix _ _)

end Cursor

end Assembler6502
