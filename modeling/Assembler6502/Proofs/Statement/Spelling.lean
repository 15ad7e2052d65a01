/-
Parsers do not depend on the spelling.

Two readings stand at the same place of one text in two spellings.  Whatever
the grammar reads there is the same: the same value or the same error, and the
readings are alike again.  Only the line that an error quotes is as it was
spelled.

* **`Reading.Alike`** — two readings of one text in two spellings;
* **`Grammatical.readAlike`** — parsers of the grammar on such readings;
* **`Parser.tokens`** — the tokens and errors that a reading leads through;
* **`tokens_alike`** — they are the same in both spellings.
-/
import Assembler6502.Proofs.Token.Spelling
import Assembler6502.Statement.Progress

namespace Assembler6502

/-! ### Cursors -/

/-- Two cursors at the same place of one text in two spellings. -/
def Cursor.Alike (c d : Cursor) : Prop :=
  c.canonical = d.canonical

namespace Cursor.Alike

variable {c d : Cursor} (h : c.Alike d)

include h

theorem next : c.next.1 = d.next.1 ∧ c.next.2.Alike d.next.2 := by
  have hnext := congrArg Cursor.next h
  rw [next_canonical, next_canonical] at hnext
  exact Prod.mk.inj hnext

theorem recover : c.recover.Alike d.recover := by
  have hrecover := congrArg Cursor.recover h
  rwa [recover_canonical, recover_canonical] at hrecover

theorem statement : c.statement = d.statement := by
  show c.canonical.statement = d.canonical.statement
  rw [show c.canonical = d.canonical from h]

end Cursor.Alike

/-! ### Readings -/

/-- Two spellings of one source. -/
structure Source.Alike (s t : Source) : Prop where
  name : s.name = t.name
  path : s.path = t.path
  bytes : Byte.canonical .code s.bytes = Byte.canonical .code t.bytes

theorem Source.Alike.ofBytes {s t : Source} (h : s.Alike t) :
    (Cursor.ofBytes s.bytes).Alike (.ofBytes t.bytes) := by
  unfold Cursor.Alike Cursor.canonical Cursor.ofBytes
  rw [h.bytes]

/-- Two readings at the same place of one text in two spellings, with the same names. -/
structure Reading.Alike (r s : Reading) : Prop where
  source : r.source.Alike s.source
  cursor : r.cursor.Alike s.cursor
  scopes : r.scopes = s.scopes

theorem Reading.Alike.recover {r s : Reading} (h : r.Alike s) : r.recover.Alike s.recover :=
  ⟨h.source, h.cursor.recover, h.scopes⟩

/-- Two errors that are the same but for the text of the line that they quote. -/
structure Diagnostic.SameButText (d e : Diagnostic) : Prop where
  cause : d.cause = e.cause
  file : d.location.file = e.location.file
  line : d.location.line = e.location.line
  column : d.location.column = e.location.column

theorem Source.Alike.sameButText {s t : Source} (h : s.Alike t) (cause : Cause) (p : Position) :
    Diagnostic.SameButText ⟨cause, s.location p⟩ ⟨cause, t.location p⟩ :=
  ⟨rfl, h.name, rfl, rfl⟩

theorem Reading.Alike.diagnostic {r s : Reading} (h : r.Alike s) (error : StatementError) :
    (r.diagnostic error).SameButText (s.diagnostic error) := by
  unfold Reading.diagnostic Reading.location
  rw [h.cursor.statement]
  exact h.source.sameButText _ _

/-! ### Parsers -/

/-- What two readings come to: the same value, or the same error but for the quoted line. -/
inductive ReadAlike {α : Type} :
    EStateM.Result Diagnostic Reading α → EStateM.Result Diagnostic Reading α → Prop where
  | ok (a : α) {r s : Reading} (alike : r.Alike s) : ReadAlike (.ok a r) (.ok a s)
  | error {d e : Diagnostic} {r s : Reading} (same : d.SameButText e) (alike : r.Alike s) :
      ReadAlike (.error d r) (.error e s)

namespace Parser

variable {α : Type} {r s : Reading}

theorem next_alike (h : r.Alike s) : ReadAlike (next r) (next s) := by
  obtain ⟨htoken, hcursor⟩ := h.cursor.next
  unfold next
  generalize r.cursor.next = x at htoken hcursor
  generalize s.cursor.next = y at htoken hcursor
  obtain ⟨x, c⟩ := x
  obtain ⟨y, d⟩ := y
  cases htoken
  cases x with
  | ok token =>
    dsimp only
    rw [h.scopes]
    exact .ok _ ⟨h.source, hcursor, rfl⟩
  | error e => exact .error (h.source.sameButText _ _) ⟨h.source, hcursor, h.scopes⟩

theorem peek_alike (h : r.Alike s) : ReadAlike (peek r) (peek s) := by
  have hnext := next_alike h
  unfold peek
  generalize next r = x at hnext
  generalize next s = y at hnext
  cases hnext with
  | ok token alike => exact .ok token ⟨alike.source, h.cursor, alike.scopes⟩
  | error same alike => exact .error same ⟨alike.source, h.cursor, alike.scopes⟩

theorem fail_alike (h : r.Alike s) (error : StatementError) :
    ReadAlike ((fail error : Parser α) r) ((fail error : Parser α) s) :=
  .error (h.diagnostic error) h

/-- Parsers of the grammar do the same on two spellings. -/
theorem Grammatical.readAlike {p : Parser α} (hp : Grammatical p) (h : r.Alike s) :
    ReadAlike (p r) (p s) := by
  induction hp generalizing r s with
  | pure a => exact .ok a h
  | fail source => exact fail_alike h _
  | next => exact next_alike h
  | peek => exact peek_alike h
  | scopes =>
    unfold Parser.scopes
    rw [h.scopes]
    exact .ok _ h
  | evaluate e pass =>
    cases e.evaluate pass with
    | ok v => exact .ok v h
    | error error => exact fail_alike h error
  | @bind _ _ p f first rest ihfirst ihrest =>
    have hfirst := ihfirst h
    show ReadAlike (EStateM.bind p f r) (EStateM.bind p f s)
    unfold EStateM.bind
    generalize p r = x at hfirst
    generalize p s = y at hfirst
    cases hfirst with
    | ok a alike => exact ihrest a alike
    | error same alike => exact .error same alike
  | @bounded _ p each enough ih =>
    -- the spellings have other lengths, and a bound above both serves both
    have hleft := enough _ (max r.cursor.rest.length s.cursor.rest.length)
      (Nat.le_max_left _ _) r (Nat.le_refl _)
    have hright := enough _ (max r.cursor.rest.length s.cursor.rest.length)
      (Nat.le_max_right _ _) s (Nat.le_refl _)
    show ReadAlike (p r.cursor.rest.length r) (p s.cursor.rest.length s)
    rw [hleft, hright]
    exact ih _ h

/-! ### Tokens one after the other -/

/-- What a parser gives: a value, or the cause of an error with its line and column. -/
def outcome : EStateM.Result Diagnostic Reading α → Except (Cause × Nat × Nat) α
  | .ok a _ => .ok a
  | .error d _ => .error (d.cause, d.location.line, d.location.column)

/-- The first `k` tokens and errors from a reading on, and the names behind them. -/
def tokens : (k : Nat) → Reading → List (Except (Cause × Nat × Nat) (Token Name)) × Scopes
  | 0, r => ([], r.scopes)
  | k + 1, r =>
    (outcome (next r) :: (tokens k (next.after r)).1, (tokens k (next.after r)).2)

theorem tokens_alike (k : Nat) (h : r.Alike s) : tokens k r = tokens k s := by
  induction k generalizing r s with
  | zero => exact congrArg (Prod.mk []) h.scopes
  | succ k ih =>
    have hnext := next_alike h
    have hfirst : outcome (next r) = outcome (next s) ∧ (next.after r).Alike (next.after s) := by
      unfold after
      generalize next r = x at hnext
      generalize next s = y at hnext
      cases hnext with
      | ok token alike => exact ⟨rfl, alike⟩
      | error same alike =>
        refine ⟨?_, alike⟩
        simp only [outcome, same.cause, same.line, same.column]
    rw [tokens, tokens, hfirst.1, ih hfirst.2]

end Parser

end Assembler6502
