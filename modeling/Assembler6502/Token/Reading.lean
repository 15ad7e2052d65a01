/-
Reading tokens.

A `Parser` reads tokens from a source against the scopes.  It keeps the cursor
and the scopes when it fails, because a statement that cannot be read is
skipped and the next one is read in what it left behind.  All parsers move
through `next` and `peek` only.

* **`Parser.next`** — reads a token;
* **`Parser.peek`** — the token that `next` would read; the cursor stays, but a
  name that was new is noted in the scopes all the same;
* **`Parser.fail`** — a statement error at the statement being read.
-/
import Assembler6502.Token.Scan

namespace Assembler6502

/-- A source with a cursor in it, and the scopes that names are looked up in. -/
structure Reading where
  source : Source
  cursor : Cursor
  scopes : Scopes

namespace Reading

/-- The start of a source. -/
def start (source : Source) (scopes : Scopes) : Reading :=
  ⟨source, .ofBytes source.bytes, scopes⟩

/-- Where the statement that is being read begins. -/
def location (r : Reading) : Location :=
  r.source.location r.cursor.statement

/-- An error of the statement that is being read. -/
def diagnostic (r : Reading) (error : StatementError) : Diagnostic :=
  ⟨.statement error, r.location⟩

/-- Moves on to the next line after a statement that failed. -/
def recover (r : Reading) : Reading :=
  { r with cursor := r.cursor.recover }

end Reading

/-- Computations that read tokens; the state outlives an error. -/
abbrev Parser := EStateM Diagnostic Reading

namespace Parser

/-- Reads the next token. -/
def next : Parser (Token Name) := fun r =>
  match r.cursor.next with
  | (.ok token, cursor) =>
    let (lexeme, scopes) := token.lexeme.bind r.scopes
    .ok ⟨lexeme, token.position⟩ { r with cursor, scopes }
  | (.error (error, position), cursor) =>
    .error ⟨.scan error, r.source.location position⟩ { r with cursor }

/-- The token that `next` would read. -/
def peek : Parser (Token Name) := fun r =>
  match next r with
  | .ok token read => .ok token { read with cursor := r.cursor }
  | .error error read => .error error { read with cursor := r.cursor }

/-- Fails with an error of the statement that is being read. -/
def fail {α : Type} (error : StatementError) : Parser α := fun r =>
  .error (r.diagnostic error) r

/-- The result of a computation that needs no tokens, its error at the statement being read. -/
def lift {α : Type} : Except StatementError α → Parser α
  | .ok value => pure value
  | .error error => fail error

/-- The bytes that are left to read. -/
def remaining : Parser Nat := fun r =>
  .ok r.cursor.rest.length r

/-- The scopes as they are. -/
def scopes : Parser Scopes := fun r =>
  .ok r.scopes r

end Parser

end Assembler6502
