/-
Where labels stand.

A statement that begins with a name is a label, unless the name is assigned to.
A label is written with a colon directly behind its name, or it begins in the
first column, or its name is known as a label already.  The last of these has no
regard to columns: a name that is bound as a label in a scope around can be a
label again, in an inner scope, wherever it stands on its line.

* **`Cursor.StartsWith`** — the token that a statement begins with;
* **`Byte.Spells`** — a name is written at an index of a text, with or without a
  colon behind it;
* **`Cursor.spells_of_scan`** — what is scanned as a name is written there;
* **`Scopes.kind_classify`** — which names are taken for labels;
* **`Statement.parse_label_iff`** — where a label is read;
* **`Statement.parse_label_iff_indented`** — a label without a colon in the
  second column.

Design notes.  A name is classified before the statement sees it, so the three
ways are two for the statement: it is given a label, or it looks at the column.
-/
import Assembler6502.Proofs.Statement.Exactness
import Assembler6502.Proofs.Token.Lookahead
import Assembler6502.Proofs.Token.Positions
import Assembler6502.Proofs.Token.Sequence

namespace Assembler6502

open Assembler6502.Parser

/-! ### Names in a text -/

/-- A name is written at an index of a text, in any case of its letters and up to a byte that does
not go on with it; there is a colon directly behind it or not. -/
def Byte.Spells (bytes : List UInt8) (offset : Nat) (w : Spelling) : Prop :=
  ∃ text behind, bytes.drop offset = text ++ behind ∧ text ≠ [] ∧ foldedText text = w.text ∧
    behind.head?.any isWord = false ∧ w.colon = behind.head?.any fun b => char b == ':'

theorem Lexeme.sign?_ne_name (c : Char) (w : Spelling) : sign? c ≠ some (.name w) := by
  unfold sign?
  split <;> simp

/-- No name is reserved. -/
theorem Lexeme.keyword?_ne_name (word : String) (w : Spelling) :
    keyword? word ≠ some (.name w) := by
  have hreserved : ∀ entry ∈ (reserved : List (String × Lexeme Spelling)),
      entry.2.isName = false := by
    decide
  intro h
  unfold keyword? at h
  split at h
  · cases h
  · obtain ⟨before, after, heq, -⟩ := List.lookup_eq_some_iff.mp h
    have hname := hreserved (word, .name w) (by rw [heq]; simp)
    cases hname

namespace Cursor

variable {c : Cursor} {w : Spelling}

/-- A word that is a name is written at the cursor. -/
theorem spells_of_word (hsolid : c.rest ≠ []) (h : c.word.1 = .ok (.name w)) :
    Byte.Spells c.rest 0 w := by
  obtain ⟨b, rest, hrest⟩ := List.exists_cons_of_ne_nil hsolid
  -- the word is the first byte and the bytes behind it that go on with it
  refine ⟨c.rest.take 1 ++ (c.rest.drop 1).takeWhile Byte.isWord,
    (c.rest.drop 1).dropWhile Byte.isWord, ?_, by simp [hrest], ?_⟩
  · rw [List.append_assoc, List.takeWhile_append_dropWhile, List.take_append_drop]
    rfl
  · have hstop : ((c.rest.drop 1).dropWhile Byte.isWord).head?.any Byte.isWord = false := by
      have hnot := List.head?_dropWhile_not Byte.isWord (c.rest.drop 1)
      cases hhead : ((c.rest.drop 1).dropWhile Byte.isWord).head? with
      | none => rfl
      | some b =>
        rw [hhead] at hnot
        exact hnot
    unfold word at h
    dsimp only at h
    split at h
    · next hkeyword =>
      cases h
      exact absurd hkeyword (Lexeme.keyword?_ne_name _ _)
    · split at h
      · cases h
      · split at h
        · next hcolon =>
          cases h
          exact ⟨rfl, hstop, hcolon.symm⟩
        · next hcolon =>
          cases h
          exact ⟨rfl, hstop, (Bool.eq_false_iff.mpr hcolon).symm⟩

theorem number_ne_name (radix : Radix) : (c.number radix).1 ≠ .ok (.name w) := by
  unfold number
  dsimp only
  split
  · split <;> simp
  · simp

theorem markedNumber_ne_name (radix : Radix) : (c.markedNumber radix).1 ≠ .ok (.name w) := by
  unfold markedNumber
  dsimp only
  split
  · exact number_ne_name radix
  · simp

theorem quoted_ne_name : c.quoted.1 ≠ .ok (.name w) := by
  unfold quoted
  dsimp only
  split
  · split <;> simp
  · simp

theorem anonymous_ne_name : c.anonymous.1 ≠ .ok (.name w) := by
  unfold anonymous
  dsimp only
  split <;> simp

theorem hash_ne_name : c.hash.1 ≠ .ok (.name w) := by
  unfold hash
  dsimp only
  split <;> simp

theorem angle_ne_name (sign : Char) (single double : Operator) :
    (c.angle sign single double).1 ≠ .ok (.name w) := by
  unfold angle
  dsimp only
  split <;> simp

/-- Only a word is a name. -/
theorem Scans.eq_word {x : Scanned} (h : c.Scans x) (hx : x.1 = .ok (.name w)) : x = c.word := by
  cases h with
  | word => rfl
  | sign sign =>
    cases hx
    exact absurd sign (Lexeme.sign?_ne_name _ _)
  | marked radix => exact absurd hx (markedNumber_ne_name radix)
  | quoted => exact absurd hx quoted_ne_name
  | anonymous => exact absurd hx anonymous_ne_name
  | hash => exact absurd hx hash_ne_name
  | less | greater => exact absurd hx (angle_ne_name _ _ _)
  | decimal => exact absurd hx (number_ne_name _)
  | illegal => cases hx

/-- What is scanned as a name is written at the cursor. -/
theorem spells_of_scan (h : c.scan.1 = .ok (.name w)) : Byte.Spells c.rest 0 w := by
  have hsolid : c.rest ≠ [] := by
    intro hnil
    rw [scan_of_nil hnil] at h
    cases h
  rw [(scans_scan hsolid).eq_word h] at h
  exact spells_of_word hsolid h

/-- A name that is read is scanned where its token stands. -/
theorem scan_of_next {position : Position} {d : Cursor}
    (h : c.next = (.ok ⟨.name w, position⟩, d)) : c.toToken.begin.scan.1 = .ok (.name w) := by
  cases hsees : c.toToken.sees Byte.isLineEnd with
  | true =>
    rw [next_eq_newline hsees] at h
    cases h
  | false =>
    rw [next_eq_scan hsees] at h
    cases hlexeme : c.toToken.begin.scan.1 with
    | ok l =>
      rw [hlexeme] at h
      cases h
      rfl
    | error e =>
      rw [hlexeme] at h
      cases h

/-- A name that is read is written in the text, at the position of its token. -/
theorem Exact.spells {bytes : List UInt8} {position : Position} {d : Cursor}
    (h : c.Exact bytes) (hnext : c.next = (.ok ⟨.name w, position⟩, d)) :
    ∃ offset, Byte.Spells bytes offset w ∧ position = Byte.positionAt bytes offset := by
  obtain ⟨offset, hrest, hat⟩ := h.next.2
  rw [hnext] at hat
  have hspells : Byte.Spells c.toToken.rest 0 w :=
    spells_of_scan (c := c.toToken.begin) (scan_of_next hnext)
  obtain ⟨text, behind, htext, hword⟩ := hspells
  exact ⟨offset, ⟨text, behind, by rw [← hrest]; exact htext, hword⟩, hat.exact⟩

/-! ### The first token of a statement -/

/-- A statement at the cursor begins with the token: it is the next one, or the next one behind a
line end. -/
inductive StartsWith (c : Cursor) (t : Token Spelling) (d : Cursor) : Prop where
  | here (read : c.next = (.ok t, d)) (solid : t.lexeme ≠ .lineEnd)
  | behind {p : Position} {e : Cursor} (ended : c.next = (.ok ⟨.lineEnd, p⟩, e))
      (read : e.next = (.ok t, d))

theorem Exact.spells_of_startsWith {bytes : List UInt8} {position : Position} {d : Cursor}
    (h : c.Exact bytes) (hstarts : c.StartsWith ⟨.name w, position⟩ d) :
    ∃ offset, Byte.Spells bytes offset w ∧ position = Byte.positionAt bytes offset := by
  cases hstarts with
  | here read => exact h.spells read
  | behind ended read =>
    have hline := h.next.1
    rw [ended] at hline
    exact hline.spells read

end Cursor

/-! ### Names that are taken for labels -/

/-- A name is taken for a label if it has a colon or is bound as one. -/
theorem Scopes.kind_classify (σ : Scopes) (w : Spelling) :
    (σ.classify w).1.symbol.kind = .label ↔
      w.colon = true ∨ ∃ value, σ.lookup w.text = some ⟨.label, value⟩ := by
  unfold classify
  split
  · next hcolon _ => simp [hcolon]
  · next hcolon _ => simp [hcolon]
  · next hcolon _ _ => simp [hcolon]
  · next symbol hcolon hlookup =>
    obtain ⟨kind, value⟩ := symbol
    simp [hcolon, hlookup]
  · next hcolon hlookup => simp [hcolon, hlookup]

theorem Lexeme.eq_name_of_bind {σ : Scopes} {l : Lexeme Spelling} {n : Name}
    (h : (l.bind σ).1 = .name n) : ∃ w, l = .name w ∧ (σ.classify w).1 = n := by
  cases l with
  | name w => exact ⟨w, rfl, Lexeme.name.inj h⟩
  | _ => cases h

theorem Lexeme.bind_eq_lineEnd_iff {σ : Scopes} {l : Lexeme Spelling} :
    (l.bind σ).1 = .lineEnd ↔ l = .lineEnd := by
  cases l <;> simp [Lexeme.bind]

theorem Lexeme.bind_eq_assign_iff {σ : Scopes} {l : Lexeme Spelling} :
    (l.bind σ).1 = .assign ↔ l = .assign := by
  cases l <;> simp [Lexeme.bind]

namespace Statement

variable {c : Context} {r r' : Reading} {statement : Statement}

/-- A statement is read from the token that it begins with. -/
theorem parse_of_startsWith {t : Token Spelling} {d : Cursor} (h : r.cursor.StartsWith t d) :
    parse c r = parseFrom c ⟨(t.lexeme.bind r.scopes).1, t.position⟩
      { r with cursor := d, scopes := (t.lexeme.bind r.scopes).2 } := by
  cases h with
  | here read solid =>
    exact parse_of_next (next_of_cursor read) (mt Lexeme.bind_eq_lineEnd_iff.mp solid)
  | @behind p e ended read =>
    have hfirst : firstToken r = .ok ⟨(t.lexeme.bind r.scopes).1, t.position⟩
        { r with cursor := d, scopes := (t.lexeme.bind r.scopes).2 } :=
      (bind_of_ok (next_of_cursor ended)).trans
        (next_of_cursor (r := { r with cursor := e }) read)
    exact bind_of_ok hfirst

theorem startsWith_of_parse (h : parse c r = .ok statement r') :
    ∃ t d, r.cursor.StartsWith t d := by
  obtain ⟨first, u, hfirst, -⟩ := bind_eq_ok h
  obtain ⟨token, v, hnext, hrest⟩ := bind_eq_ok hfirst
  obtain ⟨⟨l, p⟩, hcursor, rfl, -⟩ := next_eq_ok hnext
  by_cases hl : l = .lineEnd
  · -- a line end in front is passed over, once
    subst hl
    replace hrest : next v = .ok first u := hrest
    obtain ⟨t, hsecond, -⟩ := next_eq_ok hrest
    exact ⟨t, _, .behind hcursor hsecond⟩
  · exact ⟨⟨l, p⟩, _, .here hcursor hl⟩

theorem exists_skipLineEnd {t : Token Spelling} {e : Cursor} (h : r.cursor.next = (.ok t, e)) :
    ∃ r', skipLineEnd r = .ok () r' := by
  unfold skipLineEnd
  rw [bind_of_ok (peek_of_cursor h)]
  split
  · exact ⟨_, bind_of_ok (next_of_cursor h)⟩
  · exact ⟨_, rfl⟩

/-- A name is read as a label if something other than an assignment follows, and if it is taken for
a label or begins the line. -/
theorem parseNamed_label_iff {n : Name} {column : Nat} {name : String} :
    (∃ r', parseNamed c n column r = .ok (.label name) r') ↔
      n.text = name ∧ (∃ t e, r.cursor.next = (.ok t, e) ∧ t.lexeme ≠ .assign) ∧
        (n.symbol.kind = .label ∨ column = 1) := by
  unfold parseNamed
  constructor
  · rintro ⟨r', h⟩
    obtain ⟨token, u, hpeek, h⟩ := bind_eq_ok h
    obtain ⟨t, e, hcursor, rfl, -⟩ := peek_eq_ok hpeek
    split at h
    · -- an assignment follows, and no label comes of it
      split at h
      · cases h
      · obtain ⟨_, _, -, h⟩ := bind_eq_ok h
        obtain ⟨_, _, -, h⟩ := bind_eq_ok h
        obtain ⟨_, _, -, h⟩ := bind_eq_ok h
        obtain ⟨_, _, -, h⟩ := bind_eq_ok h
        cases h
    · next hassign =>
      split at h
      · cases h
      · next hplace =>
        obtain ⟨_, _, -, h⟩ := bind_eq_ok h
        cases h
        refine ⟨rfl, ⟨t, e, hcursor, mt Lexeme.bind_eq_assign_iff.mpr hassign⟩, ?_⟩
        rw [not_and_or] at hplace
        exact hplace.imp Decidable.not_not.mp Decidable.not_not.mp
  · rintro ⟨rfl, ⟨t, e, hnext, hassign⟩, hplace⟩
    rw [bind_of_ok (peek_of_cursor hnext), if_neg (mt Lexeme.bind_eq_assign_iff.mp hassign), if_neg]
    · obtain ⟨r', hskip⟩ := exists_skipLineEnd
        (r := { r with scopes := (t.lexeme.bind r.scopes).2 }) hnext
      exact ⟨r', bind_of_ok hskip⟩
    · rintro ⟨hkind, hcolumn⟩
      exact hplace.elim hkind hcolumn

/-- Where a label is read: the statement begins with its name, which the text has at the position
of the token, and no assignment follows.  The name has a colon directly behind it, or begins in the
first column, or is bound as a label in some scope around. -/
theorem parse_label_iff (c : Context) {r : Reading} (hexact : r.cursor.Exact r.source.bytes)
    (name : String) :
    (∃ r', parse c r = .ok (.label name) r') ↔
      ∃ colon position d offset,
        r.cursor.StartsWith ⟨.name ⟨name, colon⟩, position⟩ d ∧
        Byte.Spells r.source.bytes offset ⟨name, colon⟩ ∧
        position = Byte.positionAt r.source.bytes offset ∧
        (∃ t e, d.next = (.ok t, e) ∧ t.lexeme ≠ .assign) ∧
        (colon = true ∨ position.column = 1 ∨
          ∃ value, r.scopes.lookup name = some ⟨.label, value⟩) := by
  constructor
  · rintro ⟨r', h⟩
    obtain ⟨⟨l, position⟩, d, hstarts⟩ := startsWith_of_parse h
    rw [parse_of_startsWith hstarts] at h
    -- only a name begins a label
    obtain ⟨n, hn⟩ : ∃ n, (l.bind r.scopes).1 = .name n := by
      have hbegins := parseFrom_begins h
      generalize (l.bind r.scopes).1 = lexeme at hbegins
      cases hbegins
      exact ⟨_, rfl⟩
    obtain ⟨w, rfl, rfl⟩ := Lexeme.eq_name_of_bind hn
    obtain ⟨htext, hbehind, hplace⟩ :=
      (parseNamed_label_iff (n := (r.scopes.classify w).1)).mp ⟨r', h⟩
    rw [Scopes.classify_text] at htext
    obtain ⟨text, colon⟩ := w
    obtain rfl : text = name := htext
    obtain ⟨offset, hspells, hat⟩ := hexact.spells_of_startsWith hstarts
    refine ⟨colon, position, d, offset, hstarts, hspells, hat, hbehind, ?_⟩
    rw [Scopes.kind_classify, or_right_comm, or_assoc] at hplace
    exact hplace
  · rintro ⟨colon, position, d, offset, hstarts, -, -, hbehind, hplace⟩
    rw [parse_of_startsWith hstarts]
    refine (parseNamed_label_iff (n := (r.scopes.classify ⟨name, colon⟩).1)).mpr
      ⟨Scopes.classify_text _ _, hbehind, ?_⟩
    rw [Scopes.kind_classify, or_right_comm, or_assoc]
    exact hplace

/-- A name in the second column. -/
def indentedSource : Source :=
  ⟨"indented", none, [0x20, 0x66, 0x6f, 0x6f, 0x0a]⟩

/-- A name without a colon is a label in the second column if it is known as one. -/
theorem parse_label_iff_indented :
    Byte.Spells indentedSource.bytes 1 ⟨"foo", false⟩ ∧
      Byte.positionAt indentedSource.bytes 1 = ⟨1, 2⟩ ∧
      ∃ r', parse (.plain .second 0)
        (.start indentedSource (Scopes.empty.insert "foo" ⟨.label, some 0x1000⟩)) =
          .ok (.label "foo") r' := by
  have hspells : Byte.Spells indentedSource.bytes 1 ⟨"foo", false⟩ :=
    ⟨[0x66, 0x6f, 0x6f], [0x0a], rfl, by decide, by decide +kernel, by decide +kernel,
      by decide +kernel⟩
  have hposition : Byte.positionAt indentedSource.bytes 1 = ⟨1, 2⟩ := by decide +kernel
  refine ⟨hspells, hposition, ?_⟩
  exact (parse_label_iff (.plain .second 0)
    (r := .start indentedSource (Scopes.empty.insert "foo" ⟨.label, some 0x1000⟩))
    (Cursor.exact_ofBytes _) "foo").mpr
    ⟨false, ⟨1, 2⟩, _, 1, .here rfl (by decide), hspells, hposition.symm,
      ⟨_, _, rfl, by decide⟩, .inr (.inr ⟨some 0x1000, rfl⟩)⟩

end Statement

end Assembler6502
