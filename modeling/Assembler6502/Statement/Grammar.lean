/-
The grammar of statements.

The first token of a statement says what kind it is.  An instruction's operand
is read to the end of the line and settles the addressing mode.  Numbers that
do not fit are errors of the second pass; the first pass may hold placeholders.

* **`Statement.parse`** — reads one statement with its line end.

Design notes.  A statement that fails to parse has read its first token at
least, so skipping the rest of the line leads on.
-/
import Assembler6502.AnonymousLabels
import Assembler6502.Expression.Grammar
import Assembler6502.Statement

namespace Assembler6502

namespace Statement

/-! ### Pieces of statements -/

/-- In the second pass, fails unless a number fits. -/
def checkWidth (context : Context) (fits : Bool) (error : StatementError) : Parser Unit :=
  if context.pass = .second && !fits then Parser.fail error else pure ()

/-- Reads a token that has to be there. -/
def expect (lexeme : Lexeme Name) (what : String) : Parser Unit := do
  if (← Parser.next).lexeme ≠ lexeme then Parser.fail (.expected what)

/-- Reads a line end if one follows. -/
def skipLineEnd : Parser Unit := do
  if (← Parser.peek).lexeme = .lineEnd then
    let _ ← Parser.next

/-- Reads a line end; the end of the input is left for the next statement. -/
def endOfStatement : Parser Unit := do
  match (← Parser.peek).lexeme with
  | .lineEnd => let _ ← Parser.next
  | .endOfInput => pure ()
  | _ => Parser.fail .expectedEnd

/-- The value of a reference to an anonymous label. -/
def reference (context : Context) (resolve : List Int32 → Int32 → Option Int32)
    (error : StatementError) : Parser Value :=
  match context.pass with
  | .first => pure ⟨Pass.placeholder, .absolute⟩
  | .second =>
    match resolve context.anonymous context.address with
    | some address => pure ⟨address, .relocatable⟩
    | none => Parser.fail error

/-- A value if one starts here, otherwise the lexeme that stands in its place. -/
def operand (context : Context) : Parser (Value ⊕ Lexeme Name) := do
  if (← Parser.peek).lexeme.startsExpression then
    return .inl (← Value.parse context)
  else
    match (← Parser.next).lexeme with
    | .forward =>
      return .inl (← reference context AnonymousLabels.resolveForward .unresolvedForward)
    | .backward =>
      return .inl (← reference context AnonymousLabels.resolveBackward .unresolvedBackward)
    | lexeme => return .inr lexeme

/-- A value that has to be there. -/
def expectValue (context : Context) (what : String) : Parser Value := do
  match ← operand context with
  | .inl value => pure value
  | .inr _ => Parser.fail (.expected what)

/-! ### Directives -/

def parseOrigin (context : Context) : Parser Statement := do
  let value ← expectValue context "origin address"
  checkWidth context (fitsWord value.number) .numberTooLarge
  endOfStatement
  return .origin value.number

/-- The quoted name of a file. -/
def parseInclude : Parser Statement := do
  match (← Parser.next).lexeme with
  | .quoted text =>
    endOfStatement
    return .includeFile (Utf8.decode text)
  | _ => Parser.fail (.expected "file name in quotes")

/-- The name of a scope. -/
def parseOpenScope : Parser Statement := do
  match (← Parser.next).lexeme with
  | .name name =>
    endOfStatement
    return .openScope name.text
  | _ => Parser.fail (.expected "procedure name")

/-- An element of a sequence, which may stand in parentheses. -/
def sequenceValue (context : Context) : Parser Int32 := do
  if (← Parser.peek).lexeme = .leftParen then
    return (← Value.parse context).number
  else
    return (← expectValue context "constant").number

/-- Reads what follows an element: whether there is another one. -/
def moreInSequence : Parser Bool := do
  match (← Parser.next).lexeme with
  | .comma => pure true
  | .lineEnd | .endOfInput => pure false
  | _ => Parser.fail .expectedEnd

/-- The bytes of one element of a byte sequence. -/
def byteElement (context : Context) : Parser (List UInt8) := do
  match (← Parser.peek).lexeme with
  | .quoted text =>
    let _ ← Parser.next
    return context.characters.codes text
  | _ =>
    let value ← sequenceValue context
    checkWidth context (fitsByte value) .numberTooLarge
    return [Instruction.lowByte value]

/-- One element of a word sequence. -/
def wordElement (context : Context) : Parser (List UInt16) := do
  let value ← sequenceValue context
  checkWidth context (fitsWord value) .numberTooLarge
  return [value.toUInt32.toUInt16]

/-- At most `n` elements with commas between them. -/
def sequenceOf {α : Type} (element : Parser (List α)) : Nat → Parser (List α)
  | 0 => pure []
  | n + 1 => do
    let first ← element
    if ← moreInSequence then
      return first ++ (← sequenceOf element n)
    else
      return first

/-- Elements with commas between them, to the end of the line. -/
def sequence {α : Type} (element : Parser (List α)) : Parser (List α) := do
  let n ← Parser.remaining
  sequenceOf element (n + 1)

/-- A statement that begins with a name: an assignment or a label.  A label that has no colon and
is not known as one has to be in the first column. -/
def parseNamed (context : Context) (name : Name) (column : Nat) : Parser Statement := do
  if (← Parser.peek).lexeme = .assign then
    if name.symbol.kind = .label then
      Parser.fail (.labelRedefinition name.text)
    else
      let _ ← Parser.next
      let value ← expectValue context "constant or identifier"
      checkWidth context (fitsWord value.number) .numberTooLarge
      endOfStatement
      return .assign name.text value.number (value.relocation ≠ .absolute)
  else if name.symbol.kind ≠ .label ∧ column ≠ 1 then
    Parser.fail .labelNotInFirstColumn
  else
    skipLineEnd
    return .label name.text

/-! ### Instructions -/

/-- A mode with the operand it goes with. -/
abbrev Operand := Mode × Int32

/-- An operand without parentheses, the value of which has been read. -/
def directOperand (context : Context) (m : Mnemonic) (v : Int32) : Parser Operand := do
  checkWidth context (fitsWord v) .numberTooLarge
  match (← Parser.next).lexeme with
  | .lineEnd | .endOfInput =>
    return (if m.isBranch then .relative else m.pageMode .zeroPage v, v)
  | .comma =>
    match (← Parser.next).lexeme with
    | .register .x =>
      endOfStatement
      return (m.pageMode .zeroPageX v, v)
    | .register .y =>
      endOfStatement
      return (m.pageMode .zeroPageY v, v)
    | _ => Parser.fail (.expected "x or y")
  | _ => Parser.fail .expectedEnd

/-- How an indirect operand goes on behind its address. -/
def indirectMode : Parser Mode := do
  match (← Parser.next).lexeme with
  | .comma =>
    expect (.register .x) "x"
    expect .rightParen "')'"
    return .indirectX
  | .rightParen =>
    if (← Parser.peek).lexeme = .comma then
      let _ ← Parser.next
      expect (.register .y) "y"
      return .indirectY
    else
      return .indirect
  | _ => Parser.fail (.expected "')'")

/-- An operand in parentheses, the left one of which has been read. -/
def indirectOperand (context : Context) : Parser Operand := do
  let value ← expectValue context "address"
  checkWidth context (fitsWord value.number) .numberTooLarge
  let mode ← indirectMode
  endOfStatement
  if mode ≠ .indirect then
    checkWidth context (fitsByte value.number) .needZeroPage
  return (mode, value.number)

/-- An operand behind `#`. -/
def immediateOperand (context : Context) : Parser Operand := do
  let value ← expectValue context "expression"
  checkWidth context (fitsByte value.number) .numberTooLarge
  endOfStatement
  return (.immediate, value.number)

def parseOperand (context : Context) (m : Mnemonic) : Parser Operand := do
  match ← operand context with
  | .inl value => directOperand context m value.number
  | .inr .lineEnd | .inr .endOfInput =>
    return (if m.isShift then .accumulator else .implied, 0)
  | .inr (.register .a) =>
    endOfStatement
    return (.accumulator, 0)
  | .inr (.operator .hash) => immediateOperand context
  | .inr .leftParen => indirectOperand context
  | .inr _ => Parser.fail (.expected "operand")

def parseInstruction (context : Context) (m : Mnemonic) : Parser Statement := do
  let (mode, operand) ← parseOperand context m
  return .instruction ⟨m, mode, operand⟩

/-! ### Statements -/

/-- The statement that begins with a token. -/
def parseFrom (context : Context) (token : Token Name) : Parser Statement := do
  match token.lexeme with
  | .mnemonic m => parseInstruction context m
  | .endOfInput => return .endOfInput
  | .directive .origin => parseOrigin context
  | .operator .star =>
    expect .assign "assign"
    parseOrigin context
  | .directive .includeFile => parseInclude
  | .anonymous =>
    skipLineEnd
    return .anonymousLabel
  | .directive .bytes => return .bytes (← sequence (byteElement context))
  | .directive .words => return .words (← sequence (wordElement context))
  | .directive .openScope => parseOpenScope
  | .directive .closeScope =>
    endOfStatement
    return .closeScope
  | .name name => parseNamed context name token.position.column
  | _ => return .undefined

/-- The next token that is not a line end; there are never two line ends in a row. -/
def firstToken : Parser (Token Name) := do
  let token ← Parser.next
  if token.lexeme = .lineEnd then Parser.next else return token

/-- Reads one statement, its line end included. -/
def parse (context : Context) : Parser Statement := do
  parseFrom context (← firstToken)

end Statement

end Assembler6502
