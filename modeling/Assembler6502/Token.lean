/-
Tokens.

A lexeme is what a piece of source text is.  What a name stands for depends on
the scopes, all else on the text alone, so lexemes are over a type of names:
`Lexeme Spelling` is what the text says, `Lexeme Name` what the scopes make of
it.

* **`Lexeme.keyword?`** — the lexeme of a reserved word;
* **`Scopes.classify`** — what a written name stands for, and the scopes with
  the name noted in them;
* **`Lexeme.startsExpression`** — whether an expression can begin with it.
-/
import Assembler6502.Machine.Mnemonic
import Assembler6502.Scope
import Assembler6502.Source

namespace Assembler6502

inductive Directive where
  | origin
  | bytes
  | words
  | includeFile
  | openScope
  | closeScope
deriving DecidableEq, Repr

inductive Register where
  | a
  | x
  | y
deriving DecidableEq, Repr

/-- A name as it is written, and whether a colon follows it directly. -/
structure Spelling where
  text : String
  colon : Bool
deriving DecidableEq, Repr

/-- A name with the symbol that it stands for. -/
structure Name where
  text : String
  symbol : Symbol
deriving DecidableEq, Repr

inductive Lexeme (ν : Type) where
  | mnemonic (m : Mnemonic)
  | directive (d : Directive)
  | register (r : Register)
  | operator (op : Operator)
  | assign
  | leftParen
  | rightParen
  | comma
  | constant (value : Int32)
  | name (n : ν)
  | quoted (bytes : List UInt8)
  | anonymous
  | forward
  | backward
  | lineEnd
  | endOfInput
deriving DecidableEq, Repr

/-- A lexeme where it stands. -/
structure Token (ν : Type) where
  lexeme : Lexeme ν
  position : Position
deriving DecidableEq, Repr

namespace Lexeme

variable {ν : Type}

/-- Reserved words other than mnemonics. -/
def reserved : List (String × Lexeme ν) :=
  [("a", .register .a), ("x", .register .x), ("y", .register .y),
    (".org", .directive .origin), ("org", .directive .origin),
    (".byte", .directive .bytes), ("byte", .directive .bytes),
    (".byt", .directive .bytes), ("byt", .directive .bytes),
    (".asc", .directive .bytes), ("asc", .directive .bytes),
    (".db", .directive .bytes), ("db", .directive .bytes),
    (".word", .directive .words), ("word", .directive .words),
    (".dw", .directive .words), ("dw", .directive .words),
    (".include", .directive .includeFile), ("include", .directive .includeFile),
    (".proc", .directive .openScope), (".scope", .directive .openScope),
    (".endproc", .directive .closeScope), (".endscope", .directive .closeScope)]

/-- The lexeme of a word, if it is a mnemonic or reserved; the word is in lower case. -/
def keyword? (word : String) : Option (Lexeme ν) :=
  match Mnemonic.ofName? word with
  | some m => some (.mnemonic m)
  | none => reserved.lookup word

/-- The lexeme of a character that is a sign by itself. -/
def sign? : Char → Option (Lexeme ν)
  | '+' => some (.operator .plus)
  | '-' => some (.operator .minus)
  | '*' => some (.operator .star)
  | '/' => some (.operator .slash)
  | '&' => some (.operator .ampersand)
  | '|' => some (.operator .pipe)
  | '^' => some (.operator .caret)
  | '~' => some (.operator .tilde)
  | '\\' => some (.operator .negate)
  | '=' => some .assign
  | '(' => some .leftParen
  | ')' => some .rightParen
  | ',' => some .comma
  | _ => none

/-- The operator that a lexeme is. -/
def operator? : Lexeme ν → Option Operator
  | operator op => some op
  | _ => none

/-- Whether an expression can begin with the lexeme.  A parenthesis can begin an expression too,
but at the start of an operand it stands for an indirect address. -/
def startsExpression : Lexeme ν → Bool
  | constant _ | name _ => true
  | operator op =>
    match op with
    | .minus | .negate | .tilde | .less | .greater | .star => true
    | _ => false
  | _ => false

end Lexeme

/-! ### Names and scopes -/

/-- What a written name stands for.  A name that is new is noted in the open scope without a
value; with a colon it is noted as a label, also in place of a name that had no value. -/
def Scopes.classify (scopes : Scopes) (written : Spelling) : Name × Scopes :=
  match written.colon, scopes.lookup written.text with
  | true, some ⟨.label, value⟩ => (⟨written.text, .label, value⟩, scopes)
  | true, some ⟨.identifier, some _⟩ => (⟨written.text, .label, none⟩, scopes)
  | true, _ =>
    (⟨written.text, .label, none⟩, scopes.insert written.text ⟨.label, none⟩)
  | false, some symbol => (⟨written.text, symbol⟩, scopes)
  | false, none =>
    (⟨written.text, .identifier, none⟩, scopes.insert written.text ⟨.identifier, none⟩)

/-- Classifies the name that a lexeme may be. -/
def Lexeme.bind (scopes : Scopes) : Lexeme Spelling → Lexeme Name × Scopes
  | .name written =>
    let (bound, noted) := scopes.classify written
    (.name bound, noted)
  | .mnemonic m => (.mnemonic m, scopes)
  | .directive d => (.directive d, scopes)
  | .register r => (.register r, scopes)
  | .operator op => (.operator op, scopes)
  | .assign => (.assign, scopes)
  | .leftParen => (.leftParen, scopes)
  | .rightParen => (.rightParen, scopes)
  | .comma => (.comma, scopes)
  | .constant value => (.constant value, scopes)
  | .quoted bytes => (.quoted bytes, scopes)
  | .anonymous => (.anonymous, scopes)
  | .forward => (.forward, scopes)
  | .backward => (.backward, scopes)
  | .lineEnd => (.lineEnd, scopes)
  | .endOfInput => (.endOfInput, scopes)

theorem Lexeme.startsExpression_bind (scopes : Scopes) (l : Lexeme Spelling) :
    (l.bind scopes).1.startsExpression = l.startsExpression := by
  cases l <;> rfl

end Assembler6502
