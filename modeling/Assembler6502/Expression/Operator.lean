/-
Operators and relocation.

`Operator` holds the operator signs of the source text.  `UnaryOp` and
`BinaryOp` are what they mean in an expression: `-` is a difference between two
operands and a negation in front of one, `<` and `>` take a byte of a number.
-/
namespace Assembler6502

/-- Operator signs; `negate` is written as a backslash. -/
inductive Operator where
  | plus
  | minus
  | star
  | slash
  | ampersand
  | pipe
  | caret
  | shiftLeft
  | shiftRight
  | less
  | greater
  | tilde
  | negate
  | hash
deriving DecidableEq, Repr

/-- The English name of a sign, as it stands in a report. -/
def Operator.name : Operator → String
  | plus => "Plus"
  | minus => "Minus"
  | star => "Star"
  | slash => "Slash"
  | ampersand => "Ampersand"
  | pipe => "Pipe"
  | caret => "Caret"
  | shiftLeft => "ShiftLeft"
  | shiftRight => "ShiftRight"
  | less => "Less"
  | greater => "Greater"
  | tilde => "Tilde"
  | negate => "Negate"
  | hash => "Hash"

/-- Operators in front of one operand. -/
inductive UnaryOp where
  | negate
  | complement
  | lowByte
  | highByte
deriving DecidableEq, Repr

/-- Operators between two operands. -/
inductive BinaryOp where
  | add
  | sub
  | mul
  | div
  | and
  | or
  | xor
  | shiftLeft
  | shiftRight
deriving DecidableEq, Repr

/-- The sign that stands for the operator in a stack program. -/
def UnaryOp.sign : UnaryOp → Operator
  | negate => .negate
  | complement => .tilde
  | lowByte => .less
  | highByte => .greater

/-- The sign that stands for the operator in a stack program. -/
def BinaryOp.sign : BinaryOp → Operator
  | add => .plus
  | sub => .minus
  | mul => .star
  | div => .slash
  | and => .ampersand
  | or => .pipe
  | xor => .caret
  | shiftLeft => .shiftLeft
  | shiftRight => .shiftRight

/-- The operator that a sign is in front of a factor. -/
def UnaryOp.ofSign? : Operator → Option UnaryOp
  | .minus | .negate => some negate
  | .tilde => some complement
  | .less => some lowByte
  | .greater => some highByte
  | _ => none

/-- The operators between the terms of an expression. -/
def BinaryOp.ofSumSign? : Operator → Option BinaryOp
  | .plus => some add
  | .minus => some sub
  | .pipe => some or
  | _ => none

/-- The operators between the factors of a term. -/
def BinaryOp.ofTermSign? : Operator → Option BinaryOp
  | .star => some mul
  | .slash => some div
  | .ampersand => some and
  | .caret => some xor
  | .shiftLeft => some shiftLeft
  | .shiftRight => some shiftRight
  | _ => none

/-- Whether a value depends on an address, and which byte of it was taken. -/
inductive Relocation where
  | absolute
  | relocatable
  | lowByte
  | highByte
deriving DecidableEq, Repr

end Assembler6502
