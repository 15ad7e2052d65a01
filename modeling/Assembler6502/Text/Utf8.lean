/-
Reading bytes as UTF-8.

`Utf8.scalars` cuts bytes into characters and ill-formed pieces.  An
ill-formed piece is as long as it could still have begun a character, so a
truncated character is one piece and a stray byte is one piece.

* **`Utf8.decode`** — the text, with a replacement character for each
  ill-formed piece;
* **`Utf8.decode?`** — the text, if all of it is well formed.
-/
namespace Assembler6502

namespace Utf8

/-- A character of which some bytes have been read. -/
structure Pending where
  /-- The bits read so far. -/
  code : Nat
  /-- How many bytes are still to come. -/
  left : Nat
  /-- The range of the next byte. -/
  low : UInt8
  high : UInt8

def Pending.accepts (p : Pending) (b : UInt8) : Bool :=
  p.low ≤ b && b ≤ p.high

/-- The pieces that one more byte ends, and the character that it leaves pending. -/
abbrev Progress := List (Option Char) × Option Pending

/-- The first byte of a piece. -/
def start (b : UInt8) : Progress :=
  if b < 0x80 then ([some (Char.ofNat b.toNat)], none)
  else if b < 0xc2 then ([none], none)
  else if b < 0xe0 then ([], some ⟨b.toNat - 0xc0, 1, 0x80, 0xbf⟩)
  else if b < 0xf0 then
    ([], some ⟨b.toNat - 0xe0, 2, if b = 0xe0 then 0xa0 else 0x80,
      if b = 0xed then 0x9f else 0xbf⟩)
  else if b < 0xf5 then
    ([], some ⟨b.toNat - 0xf0, 3, if b = 0xf0 then 0x90 else 0x80,
      if b = 0xf4 then 0x8f else 0xbf⟩)
  else ([none], none)

/-- A further byte of a pending character. -/
def Pending.push (p : Pending) (b : UInt8) : Progress :=
  let code := p.code * 64 + (b.toNat - 0x80)
  if p.left ≤ 1 then ([some (Char.ofNat code)], none)
  else ([], some ⟨code, p.left - 1, 0x80, 0xbf⟩)

/-- A byte that cannot go on with the pending character ends it as ill formed and starts anew. -/
def step : Option Pending → UInt8 → Progress
  | none, b => start b
  | some p, b => if p.accepts b then p.push b else (none :: (start b).1, (start b).2)

def scalarsFrom (pending : Option Pending) : List UInt8 → List (Option Char)
  | [] => if pending.isSome then [none] else []
  | b :: rest => (step pending b).1 ++ scalarsFrom (step pending b).2 rest

/-- The characters and, as `none`, the ill-formed pieces of the bytes. -/
def scalars (bytes : List UInt8) : List (Option Char) :=
  scalarsFrom none bytes

/-- The text of the bytes, ill-formed pieces replaced. -/
def decode (bytes : List UInt8) : String :=
  String.ofList ((scalars bytes).map (·.getD (Char.ofNat 0xfffd)))

/-- The text of the bytes, if they are well formed. -/
def decode? (bytes : List UInt8) : Option String :=
  ((scalars bytes).mapM id).map String.ofList

end Utf8

end Assembler6502
