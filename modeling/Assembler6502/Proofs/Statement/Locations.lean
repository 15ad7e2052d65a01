/-
Locations in a source.

A location goes with every error: the name of the source, line and column, and
the text of the line.  Whatever was read before, looked ahead at, passed over or
read once more, a location is that of a byte of the source or of its end.

* **`Source.Locates`** — the locations of a source;
* **`Grammatical.fails`** — a parser fails at a token that cannot be read, or
  with an error of the statement at hand;
* **`Bookmarked.perform`** — calls to a reading with bookmarks;
* **`positions_exact`** — positions and locations after any calls.

Design notes.  A bookmark is a cursor of the same source, so reading goes on from
it as if nothing had been read since.  The scopes are not a part of it, and no
position depends on them.
-/
import Assembler6502.Proofs.Expression.Agreement
import Assembler6502.Proofs.Expression.Evaluation
import Assembler6502.Proofs.Statement.Inversion
import Assembler6502.Proofs.Token.Positions

namespace Assembler6502

/-- A location of a source: line and column of an index into its bytes, with the line that the
index is on. -/
def Source.Locates (source : Source) (l : Location) : Prop :=
  ∃ offset, (⟨l.line, l.column⟩ : Position).IsAt source.bytes offset ∧ l.file = source.name ∧
    l.text = Utf8.decode (Byte.lineAt source.bytes offset)

theorem Source.locates_location {source : Source} {p : Position}
    (h : ∃ offset, p.IsAt source.bytes offset) : source.Locates (source.location p) := by
  obtain ⟨offset, hat⟩ := h
  refine ⟨offset, hat, rfl, ?_⟩
  rw [Source.location, hat.exact, Byte.line_positionAt]

namespace Reading

/-- The cursor of the reading knows where it is. -/
def Exact (r : Reading) : Prop :=
  r.cursor.Exact r.source.bytes

theorem exact_start (source : Source) (scopes : Scopes) : (start source scopes).Exact :=
  Cursor.exact_ofBytes source.bytes

variable {r : Reading}

theorem Exact.locates_diagnostic (h : r.Exact) (error : StatementError) :
    r.source.Locates (r.diagnostic error).location :=
  Source.locates_location h.statement

/-- A token stands where reading goes on behind the blanks. -/
theorem Exact.heads {token : Token Spelling} {cursor : Cursor} (h : r.Exact)
    (hnext : r.cursor.next = (.ok token, cursor)) :
    token.position.Heads r.source.bytes r.cursor.toToken.rest := by
  have hplace := h.next.2
  rw [hnext] at hplace
  exact hplace

/-- The source stays the same, and exact positions stay exact. -/
def StaysExact (r s : Reading) : Prop :=
  s.source = r.source ∧ (r.Exact → s.Exact)

end Reading

/-! ### Errors of parsers -/

namespace Parser

open Reading (StaysExact)

variable {α : Type} {r r' : Reading} {d : Diagnostic}

/-- A parser fails at a token that cannot be read, or with an error of the statement at hand. -/
theorem Grammatical.fails {R : Reading → Reading → Prop} {Q : Reading → Diagnostic → Prop}
    (hR : Kept R) (hback : ∀ {r s d}, R r s → Q s d → Q r d)
    (hnext : ∀ {r r' d}, Parser.next r = .error d r' → Q r d)
    (hfail : ∀ {error : StatementError}, error.isInternal = false → ∀ r, Q r (r.diagnostic error))
    {p : Parser α} (hp : Grammatical p) (h : p r = .error d r') : Q r d := by
  induction hp generalizing r with
  | pure | scopes => cases h
  | fail source =>
    cases h
    exact hfail source _
  | next => exact hnext h
  | peek =>
    unfold Parser.peek at h
    split at h
    · cases h
    · next hpeek =>
      cases h
      exact hnext hpeek
  | evaluate e pass =>
    cases he : e.evaluate pass with
    | ok v =>
      rw [he] at h
      cases h
    | error error =>
      rw [he] at h
      cases h
      exact hfail (Expr.isInternal_of_evaluate he) _
  | bind first rest ihfirst ihrest =>
    rcases bind_eq_error h with hfirst | ⟨x, r₁, hfirst, hrest⟩
    · exact ihfirst hfirst
    · have hkept := first.follows hR r
      rw [after_of_ok hfirst] at hkept
      exact hback hkept (ihrest x hrest)
  | bounded each enough ih => exact ih r.cursor.rest.length h

theorem next_exact (h : r.Exact) : (next.after r).Exact := by
  rw [Reading.Exact, next_source, next_cursor]
  exact h.next.1

theorem kept_staysExact : Kept StaysExact where
  refl _ := ⟨rfl, id⟩
  trans h1 h2 := ⟨h2.1.trans h1.1, h2.2 ∘ h1.2⟩
  next r := ⟨next_source r, next_exact⟩
  peek r := by
    rw [StaysExact, after_peek]
    refine ⟨next_source r, fun h => ?_⟩
    show r.cursor.Exact (next.after r).source.bytes
    rw [next_source]
    exact h

theorem next_locates (h : r.Exact) (hnext : next r = .error d r') :
    r.source.Locates d.location := by
  have hplace := h.next.2
  unfold next at hnext
  split at hnext
  · cases hnext
  · next hcursor =>
    cases hnext
    rw [hcursor] at hplace
    exact Source.locates_location hplace.isAt

/-- A parser reports errors at locations of the source. -/
theorem Grammatical.locates {p : Parser α} (hp : Grammatical p) (hr : r.Exact)
    (h : p r = .error d r') : r.source.Locates d.location := by
  refine hp.fails (Q := fun r d => r.Exact → r.source.Locates d.location) kept_staysExact
    ?_ ?_ ?_ h hr
  · intro r s d hstays hs hr
    rw [← hstays.1]
    exact hs (hstays.2 hr)
  · intro r r' d hnext hr
    exact next_locates hr hnext
  · intro error _ r hr
    exact hr.locates_diagnostic error

end Parser

/-! ### Calls -/

/-- What a reading can be asked for: to read a token or to look ahead at it, to pass over the rest
of a statement, to bookmark its cursor, to go back to a bookmark, and to look names up in other
scopes from now on. -/
inductive Call where
  | next
  | peek
  | recover
  | bookmark
  | goBack (k : Nat)
  | consult (scopes : Scopes)

/-- A reading with bookmarks, the oldest first. -/
structure Bookmarked where
  reading : Reading
  bookmarks : List Cursor

namespace Bookmarked

def start (source : Source) (scopes : Scopes) : Bookmarked :=
  ⟨.start source scopes, []⟩

/-- Answers a call.  There is no way back to what was not bookmarked. -/
def perform (x : Bookmarked) : Call → Bookmarked
  | .next => { x with reading := Parser.next.after x.reading }
  | .peek => { x with reading := Parser.peek.after x.reading }
  | .recover => { x with reading := x.reading.recover }
  | .bookmark => { x with bookmarks := x.bookmarks ++ [x.reading.cursor] }
  | .goBack k =>
    match x.bookmarks[k]? with
    | some cursor => { x with reading := { x.reading with cursor } }
    | none => x
  | .consult scopes => { x with reading := { x.reading with scopes } }

/-- Answers calls one after another. -/
def performAll (x : Bookmarked) (calls : List Call) : Bookmarked :=
  calls.foldl perform x

/-- The cursor and the bookmarks know where they are in the source. -/
structure Exact (source : Source) (x : Bookmarked) : Prop where
  same : x.reading.source = source
  reading : x.reading.Exact
  bookmarks : ∀ c ∈ x.bookmarks, c.Exact source.bytes

variable {source : Source} {x : Bookmarked}

theorem exact_start (source : Source) (scopes : Scopes) : (start source scopes).Exact source :=
  ⟨rfl, Reading.exact_start source scopes, nofun⟩

theorem Exact.perform (h : x.Exact source) (call : Call) : (x.perform call).Exact source := by
  obtain ⟨hsame, hreading, hbookmarks⟩ := h
  cases call with
  | next =>
    obtain ⟨hnext, hstays⟩ := Parser.kept_staysExact.next x.reading
    exact ⟨hnext.trans hsame, hstays hreading, hbookmarks⟩
  | peek =>
    obtain ⟨hpeek, hstays⟩ := Parser.kept_staysExact.peek x.reading
    exact ⟨hpeek.trans hsame, hstays hreading, hbookmarks⟩
  | recover => exact ⟨hsame, Cursor.Exact.recover hreading, hbookmarks⟩
  | bookmark =>
    refine ⟨hsame, hreading, ?_⟩
    intro c hc
    rcases List.mem_append.mp hc with hold | hnew
    · exact hbookmarks c hold
    · rw [List.mem_singleton.mp hnew, ← hsame]
      exact hreading
  | goBack k =>
    unfold Bookmarked.perform
    dsimp only
    split
    · next cursor hcursor =>
      refine ⟨hsame, ?_, hbookmarks⟩
      show cursor.Exact x.reading.source.bytes
      rw [hsame]
      exact hbookmarks cursor (List.mem_of_getElem? hcursor)
    · exact ⟨hsame, hreading, hbookmarks⟩
  | consult scopes => exact ⟨hsame, hreading, hbookmarks⟩

theorem Exact.performAll (h : x.Exact source) (calls : List Call) :
    (x.performAll calls).Exact source := by
  induction calls generalizing x with
  | nil => exact h
  | cons call calls ih => exact ih (h.perform call)

end Bookmarked

/-- After any calls the cursor is at the line and column of the bytes that it has left to read, the
next token is at those of the bytes behind the blanks, and every error is at a location of the
source. -/
theorem positions_exact (source : Source) (scopes : Scopes) (calls : List Call) :
    let r := ((Bookmarked.start source scopes).performAll calls).reading
    r.cursor.position.Heads source.bytes r.cursor.rest ∧
    (∀ token r', Parser.next r = .ok token r' ∨ Parser.peek r = .ok token r' →
      token.position.Heads source.bytes r.cursor.toToken.rest) ∧
    (∀ error, source.Locates (r.diagnostic error).location) ∧
    ∀ {α : Type} (p : Parser α), p.Grammatical → ∀ d r', p r = .error d r' →
      source.Locates d.location := by
  intro r
  obtain ⟨hsource, hexact, -⟩ := (Bookmarked.exact_start source scopes).performAll calls
  rw [← hsource]
  refine ⟨hexact.position, ?_, hexact.locates_diagnostic, ?_⟩
  · rintro token r' (hnext | hpeek)
    · obtain ⟨token, hcursor, rfl, -⟩ := Parser.next_eq_ok hnext
      exact hexact.heads hcursor
    · obtain ⟨token, cursor, hcursor, rfl, -⟩ := Parser.peek_eq_ok hpeek
      exact hexact.heads hcursor
  · intro α p hp d r' hfail
    exact hp.locates hexact hfail

/-- Four lines with four ends: a pair, a carriage return, a line feed, and the end of the bytes. -/
def mixedSource : Source :=
  ⟨"mixed", none, [0x2c, 0x0d, 0x0a, 0x0d, 0x20, 0x28, 0x0a, 0x22, 0x61]⟩

/-- Reading back and forth over a pair and an empty line, up to a quote that is not closed. -/
theorem positions_exact_mixed :
    let reading := fun calls => ((Bookmarked.start mixedSource .empty).performAll calls).reading
    let calls : List Call := [.next, .bookmark, .next, .next, .goBack 0, .next]
    (∃ token r', Parser.peek (reading calls) = .ok token r' ∧ token.position = ⟨3, 2⟩ ∧
      token.position.Heads mixedSource.bytes [0x28, 0x0a, 0x22, 0x61]) ∧
    ∃ d r', Parser.next (reading (calls ++ [.next, .recover])) = .error d r' ∧
      d.location = ⟨"mixed", 4, 1, "\"a"⟩ ∧ mixedSource.Locates d.location := by
  intro reading calls
  constructor
  · refine ⟨⟨.leftParen, ⟨3, 2⟩⟩, _, rfl, rfl, ?_⟩
    exact (positions_exact mixedSource .empty calls).2.1 _ _ (.inr rfl)
  · refine ⟨⟨.scan .unterminatedQuote, ⟨"mixed", 4, 1, "\"a"⟩⟩, _, rfl, rfl, ?_⟩
    exact (positions_exact mixedSource .empty (calls ++ [.next, .recover])).2.2.2 _ .next _ _ rfl

end Assembler6502
