/-
Expressions and their evaluation.

An expression is a tree over 32-bit numbers.  It is evaluated by a stack
program, its items in the order in which a stack machine needs them.  The
program carries one relocation class for the whole expression: an expression
with an address in it is relocatable, and taking a byte of a number narrows the
class to that byte.

* **`Expr.program`** — the stack program of an expression;
* **`StackProgram.evaluate`** — runs a stack program; every list of items has a
  result, most of them an internal error;
* **`UnaryOp.apply`**, **`BinaryOp.apply`** — what the operators compute.

Design notes.  Numbers wrap around at 32 bits.  Division goes toward zero, a
shift takes its distance modulo 32, and a shift to the right keeps the sign.
The first of the two passes over a source replaces what it does not know yet by
`Pass.placeholder`.  So it may divide by a number that it does not know, and it
has a value for a division by zero.
-/
import Assembler6502.Diagnostic

namespace Assembler6502

/-- A source is walked twice.  The first pass finds the address of every label and writes nothing; it
leaves widths, branch distances and divisions by zero to the second pass, in which every address is
known. -/
inductive Pass where
  | first
  | second
deriving DecidableEq, Repr

/-- The value of anything not yet known in the first pass. -/
def Pass.placeholder : Int32 := 0x1000

/-- The value of an expression. -/
structure Value where
  number : Int32
  relocation : Relocation
deriving DecidableEq, Repr

/-! ### Operators on numbers -/

def UnaryOp.apply : UnaryOp → Int32 → Int32
  | negate, a => -a
  | complement, a => ~~~a
  | lowByte, a => a &&& 0xff
  | highByte, a => (a >>> 8) &&& 0xff

/-- The relocation class after the operator.  The low byte of a high byte and the high byte of a
low byte of an address have no meaning. -/
def UnaryOp.relocate : UnaryOp → Relocation → Except StatementError Relocation
  | lowByte, .relocatable | lowByte, .lowByte => .ok .lowByte
  | lowByte, .highByte => .error .lowByteOfHighByte
  | highByte, .relocatable | highByte, .highByte => .ok .highByte
  | highByte, .lowByte => .error .highByteOfLowByte
  | _, relocation => .ok relocation

def BinaryOp.apply (pass : Pass) : BinaryOp → Int32 → Int32 → Except StatementError Int32
  | add, b, a => .ok (b + a)
  | sub, b, a => .ok (b - a)
  | mul, b, a => .ok (b * a)
  | div, b, a =>
    if a ≠ 0 then .ok (b / a)
    else if pass = .second then .error .divisionByZero
    else .ok Pass.placeholder
  | and, b, a => .ok (b &&& a)
  | or, b, a => .ok (b ||| a)
  | xor, b, a => .ok (b ^^^ a)
  | shiftLeft, b, a => .ok (b <<< a)
  | shiftRight, b, a => .ok (b >>> a)

/-! ### Stack programs -/

inductive StackItem where
  | operand (value : Int32)
  | operator (op : Operator)
deriving DecidableEq, Repr

/-- Items in the order of evaluation, with the relocation class that the operands give them. -/
structure StackProgram where
  items : List StackItem
  relocation : Relocation
deriving DecidableEq, Repr

/-- The stack, its top first, and the relocation class so far. -/
structure StackState where
  stack : List Int32
  relocation : Relocation
deriving DecidableEq, Repr

namespace StackState

/-- Takes one number off the stack and puts the result on it. -/
def unary (op : UnaryOp) : StackState → Except StatementError StackState
  | ⟨a :: rest, relocation⟩ => (op.relocate relocation).map fun r => ⟨op.apply a :: rest, r⟩
  | ⟨[], _⟩ => .error (.internal .underflow)

/-- Takes two numbers off the stack and puts the result on it; the upper one is the right
operand. -/
def binary (pass : Pass) (op : BinaryOp) : StackState → Except StatementError StackState
  | ⟨a :: b :: rest, relocation⟩ => (op.apply pass b a).map fun v => ⟨v :: rest, relocation⟩
  | _ => .error (.internal .underflow)

/-- One item of a program. -/
def step (pass : Pass) (s : StackState) : StackItem → Except StatementError StackState
  | .operand value => .ok { s with stack := value :: s.stack }
  | .operator op =>
    match op with
    | .negate => s.unary .negate
    | .tilde => s.unary .complement
    | .less => s.unary .lowByte
    | .greater => s.unary .highByte
    | .plus => s.binary pass .add
    | .minus => s.binary pass .sub
    | .star => s.binary pass .mul
    | .slash => s.binary pass .div
    | .ampersand => s.binary pass .and
    | .pipe => s.binary pass .or
    | .caret => s.binary pass .xor
    | .shiftLeft => s.binary pass .shiftLeft
    | .shiftRight => s.binary pass .shiftRight
    | .hash =>
      match s.stack with
      | _ :: _ :: _ => .error (.internal (.operator .hash))
      | _ => .error (.internal .underflow)

/-- The value of a stack that holds one number. -/
def value (s : StackState) : Except StatementError Value :=
  match s.stack with
  | [number] => .ok ⟨number, s.relocation⟩
  | stack => .error (.internal (.leftover stack.length))

end StackState

/-- Runs a program on an empty stack. -/
def StackProgram.evaluate (pass : Pass) (p : StackProgram) : Except StatementError Value := do
  let s ← p.items.foldlM (StackState.step pass) ⟨[], p.relocation⟩
  s.value

/-! ### Trees -/

inductive Expr where
  /-- A number; `address` says whether it stands for an address. -/
  | value (number : Int32) (address : Bool)
  | unary (op : UnaryOp) (operand : Expr)
  | binary (op : BinaryOp) (left right : Expr)
deriving DecidableEq, Repr

namespace Expr

/-- Whether an address occurs in the expression. -/
def mentionsAddress : Expr → Bool
  | value _ address => address
  | unary _ operand => operand.mentionsAddress
  | binary _ left right => left.mentionsAddress || right.mentionsAddress

/-- Operands before their operators, the left operand first. -/
def items : Expr → List StackItem
  | value number _ => [.operand number]
  | unary op operand => operand.items ++ [.operator op.sign]
  | binary op left right => left.items ++ right.items ++ [.operator op.sign]

def program (e : Expr) : StackProgram :=
  ⟨e.items, if e.mentionsAddress then .relocatable else .absolute⟩

def evaluate (pass : Pass) (e : Expr) : Except StatementError Value :=
  e.program.evaluate pass

end Expr

end Assembler6502
