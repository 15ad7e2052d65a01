/-
The tokens of a text, one after the other.

Reading tokens and nothing else leads through a text line by line.  A line with
a token on it is read from its first token to its end, and then reading goes on
at the start of the next line.

* **`Cursor.nth`** — the cursor behind a number of tokens;
* **`exists_nth_passed`** — reading a line token by token leads behind it;
* **`Parser.exists_nth`** — what the grammar reads is read token by token;
* **`IncludeFree`** — no token is the directive that includes a file.

Design notes.  An error in a token counts as one, because the cursor moves over
it too.
-/
import Assembler6502.Proofs.Statement.Framing

namespace Assembler6502

namespace Cursor

/-- The cursor behind `k` tokens. -/
def nth (c : Cursor) : Nat → Cursor
  | 0 => c
  | k + 1 => (c.nth k).next.2

theorem nth_add (c : Cursor) (j k : Nat) : c.nth (j + k) = (c.nth j).nth k := by
  induction k with
  | zero => rfl
  | succ k ih => rw [← Nat.add_assoc, nth, nth, ih]

/-- The line of the next token or of an error in it, unless the line or the input ends. -/
def tokenLine? (c : Cursor) : Option Nat :=
  match c.next.1 with
  | .ok token => if token.lexeme.isEnding then none else some token.position.line
  | .error (_, position) => some position.line

/-- Whether the next token is the directive that includes a file. -/
def seesInclude (c : Cursor) : Bool :=
  match c.next.1 with
  | .ok token => token.lexeme = .directive .includeFile
  | .error _ => false

/-- No token is the directive that includes a file. -/
def IncludeFree (c : Cursor) : Prop :=
  ∀ k, (c.nth k).seesInclude = false

variable {c d : Cursor} {f : Frame}

theorem IncludeFree.nth (h : c.IncludeFree) (k : Nat) : (c.nth k).IncludeFree := by
  intro j
  rw [← nth_add]
  exact h (k + j)

theorem tokenLine?_of_opens (h : c.Opens d f) : c.tokenLine? = some f.number := by
  have hregular := scan_regular h.solid
  unfold tokenLine?
  rw [h.next]
  cases hscan : d.scan.1 with
  | ok l => simp [located, hregular.isEnding hscan]
  | error e => rfl

/-! ### Reading a line -/

theorem next_within (hfresh : d.fresh = false) (hline : Byte.OneLine d.rest) :
    (d.skipBlanks.rest = [] ∧ (d.within f).next.2 = f.beyond d.skipBlanks ∧
      (d.within f).tokenLine? = none) ∨
    ((d.within f).tokenLine? = some f.number ∧ ∃ e : Cursor, e.fresh = false ∧
      Byte.OneLine e.rest ∧ e.rest.length < d.rest.length ∧
      (d.within f).next.2 = e.within f) := by
  by_cases hblank : d.skipBlanks.rest = []
  · have hnext := next_within_of_blank (f := f) hfresh hblank
    refine .inl ⟨hblank, by rw [hnext], ?_⟩
    simp [tokenLine?, hnext, f.isEnding_ending]
  · have hopens := opens_within (f := f) hfresh hline hblank
    have hlt := length_scan_lt hblank
    have hle := d.skipBlanks_suffix.length_le
    refine .inr ⟨tokenLine?_of_opens hopens, d.skipBlanks.scan.2, ?_, ?_, by omega, ?_⟩
    · exact (scan_regular hblank).fresh.trans hopens.fresh
    · exact hopens.line.of_suffix d.skipBlanks.scan_suffix
    · rw [hopens.next]

/-- Reading on leads behind the line, if another line follows. -/
theorem exists_nth_passed (hfresh : d.fresh = false) (hline : Byte.OneLine d.rest)
    (hmore : f.behind ≠ []) : ∃ k, (d.within f).nth k = f.passed := by
  -- a token takes at least one of the bytes that are left of the line
  induction hn : d.rest.length using Nat.strongRecOn generalizing d with
  | ind n ih =>
    rcases next_within (f := f) hfresh hline with
      ⟨-, hover, -⟩ | ⟨-, e, hfresh', hline', hlt, hnext⟩
    · refine ⟨1, ?_⟩
      show (d.within f).next.2 = _
      rw [hover, Frame.beyond, if_neg hmore]
    · obtain ⟨k, hk⟩ := ih e.rest.length (hn ▸ hlt) hfresh' hline' rfl
      refine ⟨1 + k, ?_⟩
      rw [nth_add]
      show ((d.within f).next.2).nth k = _
      rw [hnext, hk]

/-- Behind the input there is nothing to read. -/
theorem nth_of_ended (h : c.atToken.rest = []) (k : Nat) : (c.nth k).atToken.rest = [] := by
  induction k with
  | zero => exact h
  | succ k ih =>
    rw [nth, next_of_ended ih]
    exact atToken_rest_of_nil ih

theorem includeFree_of_ended (h : c.atToken.rest = []) : c.IncludeFree := by
  intro k
  rw [seesInclude, next_of_ended (nth_of_ended h k)]
  rfl

/-- It is enough to look at the tokens up to the end of the input. -/
theorem includeFree_of_count {n : Nat} (hend : (c.nth n).atToken.rest = [])
    (h : ∀ k < n, (c.nth k).seesInclude = false) : c.IncludeFree := by
  intro k
  by_cases hk : k < n
  · exact h k hk
  · have hbehind := includeFree_of_ended hend (k - n)
    rwa [← nth_add, Nat.add_sub_cancel' (Nat.le_of_not_lt hk)] at hbehind

end Cursor

/-- A line without the directive is followed by one without it. -/
theorem Frame.Cleared.includeFree {f : Frame} {c d : Cursor} (h : f.Cleared c)
    (hfresh : d.fresh = false) (hline : Byte.OneLine d.rest)
    (hfree : (d.within f).IncludeFree) : c.IncludeFree := by
  cases h with
  | passed more cursor =>
    obtain ⟨k, hk⟩ := Cursor.exists_nth_passed hfresh hline more
    rw [cursor, ← hk]
    exact hfree.nth k
  | ended last rest => exact Cursor.includeFree_of_ended rest

/-- Recovery reads no further than the line end. -/
theorem Frame.Stays.includeFree_recover {f : Frame} {c : Cursor} (h : f.Stays c)
    (hfree : c.IncludeFree) : c.recover.IncludeFree := by
  have hcleared := h.recover.cleared
  rcases h with ⟨d, hfresh, hline, rfl⟩ | ⟨-, rfl⟩ | ⟨-, d, hfresh, hline, -, rfl⟩
  · exact hcleared.includeFree hfresh hline hfree
  · exact hfree
  · exact hcleared.includeFree hfresh hline hfree

/-! ### What the grammar reads -/

namespace Parser

/-- The second reading is a number of tokens behind the first. -/
def Onward (r s : Reading) : Prop :=
  ∃ k, s.cursor = r.cursor.nth k

theorem kept_onward : Kept Onward where
  refl _ := ⟨0, rfl⟩
  trans := by
    rintro r s t ⟨j, hj⟩ ⟨k, hk⟩
    exact ⟨j + k, by rw [Cursor.nth_add, ← hj, hk]⟩
  next r := ⟨1, next_cursor r⟩
  peek r := ⟨0, by rw [after_peek]; rfl⟩

/-- A parser of the grammar reads token by token, also when it fails. -/
theorem exists_nth {α : Type} {p : Parser α} (h : Grammatical p) (r : Reading) :
    ∃ k, (p.after r).cursor = r.cursor.nth k :=
  h.follows kept_onward r

end Parser

theorem Lexeme.eq_includeFile_of_bind {scopes : Scopes} {l : Lexeme Spelling}
    (h : (l.bind scopes).1 = .directive .includeFile) : l = .directive .includeFile := by
  cases l with
  | directive d => exact congrArg _ (Lexeme.directive.inj h)
  | _ => cases h

namespace Statement

variable {r r' : Reading}

/-- A statement is read from its first token. -/
theorem parse_of_next {context : Context} {token : Token Name} (h : Parser.next r = .ok token r')
    (hlexeme : token.lexeme ≠ .lineEnd) : parse context r = parseFrom context token r' := by
  have hfirst : firstToken r = .ok token r' := by
    unfold firstToken
    rw [bind_of_ok h, if_neg hlexeme]
    rfl
  unfold parse
  rw [bind_of_ok hfirst]

/-- At the end of the input the statement is its end. -/
theorem parse_of_ended {context : Context} (h : r.cursor.atToken.rest = []) :
    parse context r = .ok .endOfInput { r with cursor := r.cursor.atToken } := by
  rw [parse_of_next (Parser.next_of_cursor (Cursor.next_of_ended h)) nofun]
  rfl

theorem next_ne_includeFile {token : Token Name} (hfree : r.cursor.IncludeFree)
    (h : Parser.next r = .ok token r') : token.lexeme ≠ .directive .includeFile := by
  intro hlexeme
  obtain ⟨⟨l, p⟩, hnext, rfl, -⟩ := Parser.next_eq_ok h
  cases Lexeme.eq_includeFile_of_bind hlexeme
  have hsees := hfree 0
  rw [Cursor.seesInclude, Cursor.nth, hnext] at hsees
  cases hsees

/-- Without the directive no statement includes a file. -/
theorem parse_ne_includeFile {context : Context} {name : String} (hfree : r.cursor.IncludeFree) :
    parse context r ≠ .ok (.includeFile name) r' := by
  intro h
  obtain ⟨token, u, hfirst, hparse⟩ := bind_eq_ok h
  obtain ⟨first, v, hnext, hrest⟩ := bind_eq_ok hfirst
  have hbegins := parseFrom_begins hparse
  have htoken : token.lexeme = .directive .includeFile := by
    cases hlexeme : token.lexeme with
    | directive d =>
      rw [hlexeme] at hbegins
      cases hbegins
      rfl
    | _ =>
      rw [hlexeme] at hbegins
      cases hbegins
  split at hrest
  · -- the second token, behind a line end
    have hv : v.cursor = r.cursor.nth 1 := by
      rw [← Parser.after_of_ok hnext]
      exact Parser.next_cursor r
    exact next_ne_includeFile (hv ▸ hfree.nth 1) hrest htoken
  · cases hrest
    exact next_ne_includeFile hfree hnext htoken

end Statement

end Assembler6502
