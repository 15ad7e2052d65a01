/-
Numerals in three radices.

A number is written with hexadecimal digits after `$`, binary digits after
`%`, or decimal digits.  `Radix.natural?` is the positional value of digits of
any length; `Radix.integer?` takes a sign too and has a value only if it fits
in 32 bits.
-/
namespace Assembler6502

/-- How a number is written. -/
inductive Radix where
  | hexadecimal
  | binary
  | decimal
deriving DecidableEq, Repr

namespace Radix

def base : Radix → Nat
  | hexadecimal => 16
  | binary => 2
  | decimal => 10

def name : Radix → String
  | hexadecimal => "hexadecimal"
  | binary => "binary"
  | decimal => "decimal"

/-- The radix that a character in front of the digits selects. -/
def ofMark? : Char → Option Radix
  | '$' => some hexadecimal
  | '%' => some binary
  | _ => none

/-- The value of a digit, if it is one in this radix. -/
def digit? (r : Radix) (c : Char) : Option Nat :=
  let value :=
    if c.isDigit then c.toNat - '0'.toNat
    else if c.isLower then c.toNat - 'a'.toNat + 10
    else if c.isUpper then c.toNat - 'A'.toNat + 10
    else r.base
  if value < r.base then some value else none

def isDigit (r : Radix) (c : Char) : Bool :=
  (r.digit? c).isSome

/-- The positional value of digits, the first one leading. -/
def natural? (r : Radix) (digits : List Char) : Option Nat :=
  digits.foldlM (fun value c => (r.digit? c).map (value * r.base + ·)) 0

/-- The value of digits with an optional sign, if there is a digit and it fits in 32 bits. -/
def integer? (r : Radix) : List Char → Option Int32
  | [] => none
  | '-' :: digits => if digits.isEmpty then none else (r.natural? digits).bind negative?
  | '+' :: digits => if digits.isEmpty then none else (r.natural? digits).bind positive?
  | digits => (r.natural? digits).bind positive?
where
  positive? (n : Nat) : Option Int32 :=
    if n < 0x80000000 then some (Int32.ofNat n) else none
  negative? (n : Nat) : Option Int32 :=
    if n ≤ 0x80000000 then some (-Int32.ofNat n) else none

theorem isDigit_decimal {c : Char} (h : c.isDigit = true) : decimal.isDigit c = true := by
  have hc : c.toNat - 48 < 10 := by
    simp only [Char.isDigit, Bool.and_eq_true, decide_eq_true_eq] at h
    have h2 : c.toNat ≤ 57 := h.2
    omega
  simp [isDigit, digit?, h, base, hc]

end Radix

end Assembler6502
