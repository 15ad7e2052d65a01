/-
The calculator.

A text with one expression a line is a list of calculations.  Names are looked
up in the scopes, and `*` counts the calculations from zero.

* **`Calculator.line`** — the number and the value of the next line that has
  an expression;
* **`Calculator.lines`** — those of all lines.
-/
import Assembler6502.Expression.Grammar

namespace Assembler6502

namespace Calculator

/-- The next line with an expression, which is the `k`-th; none at the end of the text. -/
def line (k : Int32) : Parser (Option (Nat × Int32)) := do
  let token ← Parser.peek
  if token.lexeme = .endOfInput then return none
  let value ← Value.parse (.plain .second k)
  match (← Parser.next).lexeme with
  | .lineEnd | .endOfInput => return some (token.position.line, value.number)
  | _ => Parser.fail .expectedEnd

/-- At most `n` lines, the first of them the `k`-th. -/
def linesFrom : Nat → Int32 → Parser (List (Nat × Int32))
  | 0, _ => pure []
  | n + 1, k => do
    match ← line k with
    | none => return []
    | some entry => return entry :: (← linesFrom n (k + 1))

/-- All lines; each has a byte of its own, so there are no more of them than bytes. -/
def lines : Parser (List (Nat × Int32)) := do
  let n ← Parser.remaining
  linesFrom (n + 1) 0

end Calculator

end Assembler6502
