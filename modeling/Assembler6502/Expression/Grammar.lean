/-
The grammar of expressions.

    expression := term (('+' | '-' | '|') term)*
    term       := unary (('*' | '/' | '&' | '^' | '<<' | '>>') unary)*
    unary      := ('-' | '\' | '~' | '<' | '>') factor | factor
    factor     := constant | '*' | name | '(' expression ')'

An expression is read token by token with one token of lookahead, and stops
before the first token that cannot go on with it.  `*` is the current address
where a factor is due and a multiplication behind one.

* **`Expr.parse`** — reads an expression as a tree;
* **`Value.parse`** — reads an expression and evaluates it.

Design notes.  Parentheses nest and operators chain only as far as there are
bytes to read, which bounds the recursion.
-/
import Assembler6502.Expression
import Assembler6502.Text.CharacterSet
import Assembler6502.Token.Reading

namespace Assembler6502

/-- What a statement is read against, apart from the scopes. -/
structure Context where
  pass : Pass
  /-- The address of the statement. -/
  address : Int32
  /-- The anonymous labels of the current level of nesting. -/
  anonymous : List Int32
  /-- The character set of quoted text. -/
  characters : CharacterSet

def Context.plain (pass : Pass) (address : Int32) : Context :=
  ⟨pass, address, [], .unchanged⟩

namespace Expr

/-- The factor that a name is.  A name without a value gets a placeholder in the first pass; in the
second it is looked up among the names that have one. -/
def ofName (pass : Pass) (name : Name) : Parser Expr :=
  match name.symbol.value, pass with
  | some v, _ => pure (.value v (name.symbol.kind = .label))
  | none, .first => pure (.value Pass.placeholder (name.symbol.kind = .label))
  | none, .second => do
    match (← Parser.scopes).resolve name.text with
    | some d => pure (.value d.value (d.kind = .label))
    | none => Parser.fail (.undefinedName name.text)

/-- A factor; `nested` reads what stands in parentheses. -/
def factor (context : Context) (nested : Parser Expr) : Parser Expr := do
  match (← Parser.next).lexeme with
  | .constant v => pure (.value v false)
  | .operator .star => pure (.value context.address true)
  | .name name => ofName context.pass name
  | .leftParen =>
    let e ← nested
    if (← Parser.next).lexeme = .rightParen then pure e else Parser.fail (.expected "')'")
  | _ => Parser.fail (.expected "expression")

/-- The operator at the cursor, as one of a kind. -/
def peekOperator {α : Type} (kind : Operator → Option α) : Parser (Option α) := do
  return (← Parser.peek).lexeme.operator?.bind kind

def unaryFactor (context : Context) (nested : Parser Expr) : Parser Expr := do
  match ← peekOperator UnaryOp.ofSign? with
  | some op =>
    let _ ← Parser.next
    return .unary op (← factor context nested)
  | none => factor context nested

/-- Goes on with operators of a kind and their right operands, at most `n` of them. -/
def chain (kind : Operator → Option BinaryOp) (operand : Parser Expr) : Nat → Expr → Parser Expr
  | 0, left => pure left
  | n + 1, left => do
    match ← peekOperator kind with
    | some op =>
      let _ ← Parser.next
      let right ← operand
      chain kind operand n (.binary op left right)
    | none => pure left

/-- Operands with operators of a kind between them, grouped to the left. -/
def operands (kind : Operator → Option BinaryOp) (operand : Parser Expr) : Parser Expr := do
  let left ← operand
  let n ← Parser.remaining
  chain kind operand n left

def term (context : Context) (nested : Parser Expr) : Parser Expr :=
  operands BinaryOp.ofTermSign? (unaryFactor context nested)

/-- An expression with fewer than `n` parentheses around each other. -/
def expression (context : Context) : Nat → Parser Expr
  | 0 => Parser.fail (.expected "expression")
  | n + 1 => operands BinaryOp.ofSumSign? (term context (expression context n))

/-- Reads an expression. -/
def parse (context : Context) : Parser Expr := do
  let n ← Parser.remaining
  expression context (n + 1)

end Expr

/-- Reads an expression and evaluates it. -/
def Value.parse (context : Context) : Parser Value := do
  let e ← Expr.parse context
  Parser.lift (e.evaluate context.pass)

end Assembler6502
