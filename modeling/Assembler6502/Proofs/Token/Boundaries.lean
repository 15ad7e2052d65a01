/-
Where tokens begin and end.

What a name stands for depends on the scopes that it is read against, and reading
it may change them.  Nothing else about a token depends on them: neither where it
stands nor where it ends nor what it is, nor whether it is one at all.

* **`Name.Homonyms`** — names that are written the same way;
* **`Parser.SameRead`** — the same token or the same error, with the same cursor
  behind it, up to what a name stands for;
* **`Parser.next_sameRead`** — one token, read against any two scopes;
* **`Parser.boundary`** — the cursors between tokens, each of which is read against
  scopes of its own;
* **`Parser.tokens_independent`** — a whole source, read against any scopes.

Design notes.  Between two tokens a statement may be carried out, which changes
the scopes.  So a run is given the scopes for every token anew, and those that a
token leaves behind may be among them or not.
-/
import Assembler6502.Proofs.Token.Names

namespace Assembler6502

/-- Names that are written the same way and not reserved.  They may stand for different symbols. -/
def Name.Homonyms (m n : Name) : Prop :=
  m.text = n.text ∧ (Lexeme.keyword? m.text : Option (Lexeme Spelling)) = none

namespace Cursor

variable {c : Cursor}

/-- The end of the input is read only where nothing is left. -/
theorem next_ne_endOfInput (h : c.toToken.rest ≠ []) (p : Position) :
    c.next.1 ≠ .ok ⟨.endOfInput, p⟩ := by
  intro hnext
  cases hsees : c.toToken.sees Byte.isLineEnd with
  | true =>
    rw [next_eq_newline hsees] at hnext
    cases hnext
  | false =>
    have hregular : Scanned.Regular c.toToken.begin c.toToken.begin.scan := scan_regular h
    rw [next_eq_scan hsees] at hnext
    cases hscan : c.toToken.begin.scan.1 with
    | error e =>
      rw [hscan] at hnext
      cases hnext
    | ok l =>
      have hending := hregular.isEnding hscan
      rw [hscan] at hnext
      cases hnext
      cases hending

/-- A text has a number of tokens, behind which there is its end and nothing else. -/
theorem exists_count (c : Cursor) :
    ∃ n, ∀ k, (∃ p, (c.nth k).next.1 = .ok ⟨.endOfInput, p⟩) ↔ n ≤ k := by
  -- what is left gets shorter with every token
  induction hlength : c.rest.length using Nat.strongRecOn generalizing c with
  | ind length ih =>
    by_cases hrest : c.toToken.rest = []
    · refine ⟨0, fun k => ⟨fun _ => Nat.zero_le k, fun _ => ?_⟩⟩
      exact ⟨_, congrArg Prod.fst (next_of_ended (nth_of_ended hrest k))⟩
    · have hlt : c.next.2.rest.length < length := by
        rcases c.next_ended_or_length_lt with ⟨-, hnil⟩ | hlt
        · exact absurd hnil hrest
        · omega
      obtain ⟨n, hn⟩ := ih _ hlt c.next.2 rfl
      refine ⟨n + 1, fun k => ?_⟩
      cases k with
      | zero =>
        refine ⟨fun ⟨p, hp⟩ => absurd hp (next_ne_endOfInput hrest p), fun hle => ?_⟩
        omega
      | succ k =>
        have hstep : c.nth (k + 1) = c.next.2.nth k := by
          rw [Nat.add_comm, nth_add]
          rfl
        rw [hstep, hn k]
        omega

end Cursor

namespace Parser

/-- Two ways to read a token that give the same up to what a name stands for. -/
inductive SameRead : EStateM.Result Diagnostic Reading (Token Name) →
    EStateM.Result Diagnostic Reading (Token Name) → Prop where
  | token {t u : Token Name} {r s : Reading} (lexeme : t.lexeme.Alike Name.Homonyms u.lexeme)
      (position : t.position = u.position) (source : r.source = s.source)
      (cursor : r.cursor = s.cursor) : SameRead (.ok t r) (.ok u s)
  | error {d : Diagnostic} {r s : Reading} (source : r.source = s.source)
      (cursor : r.cursor = s.cursor) : SameRead (.error d r) (.error d s)

/-! ### One token -/

variable (source : Source) (c : Cursor)

/-- A token is read in the same way against any scopes. -/
theorem next_sameRead (σ τ : Scopes) : SameRead (next ⟨source, c, σ⟩) (next ⟨source, c, τ⟩) := by
  cases hc : c.next with
  | mk scanned d =>
    cases scanned with
    | error e =>
      simp only [next, hc]
      exact .error rfl rfl
    | ok t =>
      simp only [next, hc]
      refine .token (Lexeme.bind_alike fun w hw => ?_) rfl rfl rfl
      obtain ⟨lexeme, position⟩ := t
      cases hw
      obtain ⟨word, behind, -, hname, htext⟩ := Cursor.isName_of_next hc
      refine ⟨by rw [σ.classify_text, τ.classify_text], ?_⟩
      rw [σ.classify_text, ← htext, hname.free]

/-- A token is looked at in the same way against any scopes. -/
theorem peek_sameRead (σ τ : Scopes) : SameRead (peek ⟨source, c, σ⟩) (peek ⟨source, c, τ⟩) := by
  have hnext := next_sameRead source c σ τ
  unfold peek
  generalize next ⟨source, c, σ⟩ = x, next ⟨source, c, τ⟩ = y at hnext
  cases hnext with
  | token lexeme position source cursor => exact .token lexeme position source rfl
  | error source cursor => exact .error source rfl

variable {c} in
/-- A name with a colon directly behind it is a label, whatever the scopes have it for. -/
theorem next_label {word behind : List UInt8} (hname : Byte.IsName word)
    (h : c.toToken.rest = word ++ 0x3a :: behind) (σ : Scopes) :
    ∃ value scopes, next ⟨source, c, σ⟩ =
      .ok ⟨.name ⟨Byte.foldedText word, ⟨.label, value⟩⟩, c.toToken.position⟩
        ⟨source, c.toToken.begin.skip (word.length + 1), scopes⟩ := by
  have hends : ∀ b ∈ (0x3a :: behind).head?, Byte.isWord b = false := by
    rintro _ ⟨⟩
    decide
  have hnext := Cursor.next_name h hname hends
  have hcolon : (0x3a :: behind).head?.any (fun b => Byte.char b == ':') = true := rfl
  rw [if_pos hcolon] at hnext
  cases hclassify : σ.classify ⟨Byte.foldedText word, true⟩ with
  | mk name scopes =>
    obtain ⟨text, kind, value⟩ := name
    have htext := σ.classify_text ⟨Byte.foldedText word, true⟩
    have hkind := (σ.kind_classify ⟨Byte.foldedText word, true⟩).mpr (.inl rfl)
    rw [hclassify] at htext hkind
    obtain rfl : text = Byte.foldedText word := htext
    obtain rfl : kind = .label := hkind
    refine ⟨value, scopes, ?_⟩
    simp only [next, hnext, Lexeme.bind, hclassify]

/-! ### Token after token -/

/-- The cursor behind a number of tokens, each of which is read against scopes of its own. -/
def boundary (tables : Nat → Scopes) : Nat → Cursor
  | 0 => c
  | k + 1 => (next.after ⟨source, boundary tables k, tables k⟩).cursor

/-- How a token is read behind a number of others. -/
def readNth (tables : Nat → Scopes) (k : Nat) : EStateM.Result Diagnostic Reading (Token Name) :=
  next ⟨source, boundary source c tables k, tables k⟩

/-- The cursor between tokens depends on the text alone. -/
theorem boundary_eq_nth (tables : Nat → Scopes) (k : Nat) : boundary source c tables k = c.nth k := by
  induction k with
  | zero => rfl
  | succ k ih => rw [boundary, next_cursor, ih, Cursor.nth]

theorem readNth_sameRead (tables tables' : Nat → Scopes) (k : Nat) :
    SameRead (readNth source c tables k) (readNth source c tables' k) := by
  unfold readNth
  rw [boundary_eq_nth, boundary_eq_nth]
  exact next_sameRead source (c.nth k) (tables k) (tables' k)

/-- The end of the input is read where it is scanned. -/
theorem next_eq_endOfInput_iff (r : Reading) :
    (∃ p s, next r = .ok ⟨.endOfInput, p⟩ s) ↔ ∃ p, r.cursor.next.1 = .ok ⟨.endOfInput, p⟩ := by
  cases hc : r.cursor.next with
  | mk scanned d =>
    cases scanned with
    | error e => simp [next, hc]
    | ok t =>
      obtain ⟨lexeme, position⟩ := t
      cases lexeme <;> simp [next, hc, Lexeme.bind]

/-- Which tokens a source has does not depend on the scopes.  Against any two, the token at a cursor
is read as the same token in the same place, or as the same error, and the cursor is the same
behind it; it is looked at in the same way.  Only names that are not reserved may stand for
different symbols, and even those are labels in either case if a colon is directly behind them.  So
a whole source is read as equally many tokens, which begin and end in the same places, whatever the
scopes are by the time of each. -/
theorem tokens_independent :
    (∀ σ τ, SameRead (next ⟨source, c, σ⟩) (next ⟨source, c, τ⟩) ∧
      SameRead (peek ⟨source, c, σ⟩) (peek ⟨source, c, τ⟩)) ∧
    (∀ word behind, Byte.IsName word → c.toToken.rest = word ++ 0x3a :: behind → ∀ σ,
      ∃ value scopes, next ⟨source, c, σ⟩ =
        .ok ⟨.name ⟨Byte.foldedText word, ⟨.label, value⟩⟩, c.toToken.position⟩
          ⟨source, c.toToken.begin.skip (word.length + 1), scopes⟩) ∧
    (∀ tables tables' k, boundary source c tables k = boundary source c tables' k ∧
      SameRead (readNth source c tables k) (readNth source c tables' k)) ∧
    ∃ n, ∀ tables k, (∃ p r, readNth source c tables k = .ok ⟨.endOfInput, p⟩ r) ↔ n ≤ k := by
  refine ⟨fun σ τ => ⟨next_sameRead source c σ τ, peek_sameRead source c σ τ⟩, ?_, ?_, ?_⟩
  · intro word behind hname hrest σ
    exact next_label source hname hrest σ
  · intro tables tables' k
    exact ⟨by rw [boundary_eq_nth, boundary_eq_nth], readNth_sameRead source c tables tables' k⟩
  · obtain ⟨n, hn⟩ := c.exists_count
    refine ⟨n, fun tables k => ?_⟩
    rw [readNth, next_eq_endOfInput_iff, boundary_eq_nth]
    exact hn k

/-- A name that was bound in between is read as another symbol, and ends where it ended. -/
theorem tokens_independent_rebound :
    ∃ (source : Source) (σ τ : Scopes) (m n : Name) (p : Position) (r s : Reading),
      source.bytes = Byte.ofChars "loop:loop".toList ∧
      readNth source (.ofBytes source.bytes) (fun _ => σ) 1 = .ok ⟨.name m, p⟩ r ∧
      readNth source (.ofBytes source.bytes) (fun _ => τ) 1 = .ok ⟨.name n, p⟩ s ∧
      m.symbol = ⟨.identifier, none⟩ ∧ n.symbol = ⟨.label, some 0x1000⟩ ∧ r.cursor = s.cursor := by
  have hσ : ∃ r, readNth ⟨"main", none, Byte.ofChars "loop:loop".toList⟩
      (.ofBytes (Byte.ofChars "loop:loop".toList)) (fun _ => .empty) 1 =
        .ok ⟨.name ⟨"loop", ⟨.identifier, none⟩⟩, ⟨1, 6⟩⟩ r :=
    ⟨_, rfl⟩
  have hτ : ∃ s, readNth ⟨"main", none, Byte.ofChars "loop:loop".toList⟩
      (.ofBytes (Byte.ofChars "loop:loop".toList))
      (fun _ => Scopes.empty.insert "loop" ⟨.label, some 0x1000⟩) 1 =
        .ok ⟨.name ⟨"loop", ⟨.label, some 0x1000⟩⟩, ⟨1, 6⟩⟩ s :=
    ⟨_, rfl⟩
  obtain ⟨r, hr⟩ := hσ
  obtain ⟨s, hs⟩ := hτ
  have hsame := (tokens_independent ⟨"main", none, Byte.ofChars "loop:loop".toList⟩
    (.ofBytes (Byte.ofChars "loop:loop".toList))).2.2.1 (fun _ => .empty)
      (fun _ => Scopes.empty.insert "loop" ⟨.label, some 0x1000⟩) 1
  rw [hr, hs] at hsame
  obtain ⟨-, hread⟩ := hsame
  cases hread with
  | token lexeme position source cursor =>
    exact ⟨_, _, _, _, _, _, r, s, rfl, hr, hs, rfl, rfl, cursor⟩

end Parser

end Assembler6502
