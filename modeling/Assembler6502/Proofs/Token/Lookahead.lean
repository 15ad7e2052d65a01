/-
Looking ahead.

A token that is looked at stays where it is, but the name that it may be is noted
in the scopes, and a note that was there may be replaced.  So the token is read
against other scopes than it was looked at.  It is the same token all the same,
because a name is classified by its note as it was classified without it.

* **`Scopes.classify_classify`** — a name that was classified is classified the
  same way again, and noting it again changes nothing;
* **`Parser.next_of_peek`** — reading a token after looking at it is reading it;
* **`Parser.peek_transparent`** — looking ahead any number of times leaves the
  cursor where it was, sees the token that is read, and changes nothing about
  how it is read.

Design notes.  A lexeme is scanned from the bytes ahead alone, with no state but
the cursor: the radix of a number does not outlive its scan.  What looking ahead
leaves behind is in the scopes only.
-/
import Assembler6502.Proofs.Statement.Values
import Mathlib.Logic.Function.Iterate

namespace Assembler6502

/-! ### Names that were noted -/

namespace Scopes

/-- A name that is bound in the open scope is found there. -/
theorem lookup_insert_self (s : Scopes) (name : String) (symbol : Symbol) :
    (s.insert name symbol).lookup name = some symbol := by
  apply lookup_of_symbolAt
  rw [symbolAt_insert, if_pos ⟨rfl, rfl⟩]

/-- A note is classified as what it was noted as: with a colon as a label, and without one as a name
that is not bound yet. -/
theorem classify_noted (s : Scopes) (w : Spelling) :
    (s.insert w.text ⟨if w.colon then .label else .identifier, none⟩).classify w =
      (⟨w.text, if w.colon then .label else .identifier, none⟩,
        s.insert w.text ⟨if w.colon then .label else .identifier, none⟩) := by
  unfold classify
  rw [lookup_insert_self]
  cases w.colon <;> rfl

theorem lookup_insert_of_ne {s : Scopes} {name other : String} {symbol : Symbol}
    (h : other ≠ name) : (s.insert name symbol).lookup other = s.lookup other := by
  unfold lookup
  have hat : ∀ scope, (s.insert name symbol).symbolAt scope other = s.symbolAt scope other :=
    fun scope => by rw [symbolAt_insert, if_neg fun hsame => h hsame.2]
  simp only [hat]
  rfl

/-- What the open scope has a name for is what the name is found as. -/
theorem lookupLocal_eq_none_or (s : Scopes) (name : String) :
    s.lookupLocal name = none ∨ s.lookupLocal name = s.lookup name := by
  cases hlocal : s.lookupLocal name with
  | none => exact .inl rfl
  | some symbol => exact .inr (lookup_of_symbolAt hlocal).symm

/-- Either a name is known well enough, and nothing is noted, or a note without a value is made.  It
is made where the name is not found, or where what is found is a note that has to become one of a
label. -/
theorem classify_cases (s : Scopes) (w : Spelling) :
    (s.classify w).2 = s ∨
      (s.lookup w.text = none ∨
        w.colon = true ∧ s.lookup w.text = some ⟨.identifier, none⟩) ∧
      s.classify w = (⟨w.text, if w.colon then .label else .identifier, none⟩,
        s.insert w.text ⟨if w.colon then .label else .identifier, none⟩) := by
  unfold classify
  split
  · exact .inl rfl
  · exact .inl rfl
  · next hcolon hlabel hvalue =>
    refine .inr ⟨?_, by simp [hcolon]⟩
    cases hw : s.lookup w.text with
    | none => exact .inl rfl
    | some symbol =>
      obtain ⟨kind, value⟩ := symbol
      cases kind with
      | label => exact absurd hw (hlabel value)
      | identifier =>
        cases value with
        | none => exact .inr ⟨hcolon, rfl⟩
        | some v => exact absurd hw (hvalue v)
  · exact .inl rfl
  · next hcolon hnone => exact .inr ⟨.inl hnone, by simp [hcolon]⟩

/-- A name that was classified is classified the same way again. -/
theorem classify_classify (s : Scopes) (w : Spelling) :
    (s.classify w).2.classify w = s.classify w := by
  rcases s.classify_cases w with hsame | ⟨-, hnoted⟩
  · rw [hsame]
  · rw [hnoted]
    exact s.classify_noted w

end Scopes

theorem Lexeme.bind_bind (scopes : Scopes) (l : Lexeme Spelling) :
    l.bind (l.bind scopes).2 = l.bind scopes := by
  cases l with
  | name w => simp only [Lexeme.bind, scopes.classify_classify w]
  | _ => rfl

/-- A relation between scopes that classifying a name keeps is kept by every parser. -/
theorem Reading.kept_scopes {R : Scopes → Scopes → Prop} (hrefl : ∀ s, R s s)
    (htrans : ∀ {s t u}, R s t → R t u → R s u) (hclassify : ∀ s w, R s (Scopes.classify s w).2) :
    Parser.Kept fun r s => R r.scopes s.scopes := by
  have hbind : ∀ (l : Lexeme Spelling) (s : Scopes), R s (l.bind s).2 := by
    intro l s
    cases l with
    | name w => exact hclassify s w
    | _ => exact hrefl s
  have hnext : ∀ r : Reading, R r.scopes (Parser.next.after r).scopes := by
    intro r
    unfold Parser.after Parser.next
    cases hc : r.cursor.next with
    | mk scanned cursor =>
      cases scanned with
      | ok token => exact hbind token.lexeme r.scopes
      | error e => exact hrefl r.scopes
  refine ⟨fun r => hrefl r.scopes, htrans, hnext, fun r => ?_⟩
  rw [Parser.after_peek]
  exact hnext r

/-! ### Looking ahead and reading -/

namespace Parser

/-- What a parser gives, apart from where it ends. -/
def answer {α : Type} : EStateM.Result Diagnostic Reading α → Except Diagnostic α
  | .ok a _ => .ok a
  | .error d _ => .error d

variable (r : Reading)

/-- The token that is looked at is the token that would be read. -/
theorem answer_peek : answer (peek r) = answer (next r) := by
  unfold peek
  cases next r <;> rfl

/-- After looking ahead, reading a token gives what it would have given, and ends where it would
have ended. -/
theorem next_of_peek : next (peek.after r) = next r := by
  rw [after_peek]
  cases hc : r.cursor.next with
  | mk scanned cursor =>
    cases scanned with
    | error e => simp [next, after, hc]
    | ok token => simp [next, after, hc, Lexeme.bind_bind]

theorem after_congr {α : Type} {p : Parser α} {r s : Reading} (h : p r = p s) :
    p.after r = p.after s := by
  unfold after
  rw [h]

/-- Looking ahead again changes nothing. -/
theorem after_peek_peek : peek.after (peek.after r) = peek.after r := by
  have hnext : next.after (peek.after r) = next.after r := after_congr (next_of_peek r)
  have hcursor : (peek.after r).cursor = r.cursor := by rw [after_peek]
  rw [after_peek (peek.after r), hnext, hcursor, ← after_peek r]

/-- After looking ahead once, looking ahead any number of times changes nothing. -/
theorem iterate_peek (k : Nat) : peek.after^[k + 1] r = peek.after r := by
  induction k with
  | zero => rfl
  | succ k ih => rw [Function.iterate_succ_apply', ih, after_peek_peek]

theorem cursor_iterate_peek (k : Nat) : (peek.after^[k] r).cursor = r.cursor := by
  cases k with
  | zero => rfl
  | succ k => rw [iterate_peek, after_peek]

theorem source_iterate_peek (k : Nat) : (peek.after^[k] r).source = r.source := by
  cases k with
  | zero => rfl
  | succ k =>
    rw [iterate_peek, after_peek]
    exact next_source r

/-- However often a token was looked at, reading it is the same. -/
theorem next_iterate_peek (k : Nat) : next (peek.after^[k] r) = next r := by
  cases k with
  | zero => rfl
  | succ k => rw [iterate_peek, next_of_peek]

/-- Looking ahead is transparent.  Whatever is bound in whichever scope: looking ahead keeps the
cursor and the source; however often it was done, the next look and the next reading give the token
or the error that reading gives without it, and reading ends with the same cursor and the same
scopes; and all looks but the first leave the scopes as they are. -/
theorem peek_transparent (k : Nat) :
    (peek.after^[k] r).cursor = r.cursor ∧ (peek.after^[k] r).source = r.source ∧
    answer (peek (peek.after^[k] r)) = answer (next r) ∧
    next (peek.after^[k] r) = next r ∧
    peek.after^[k + 1] r = peek.after r := by
  refine ⟨cursor_iterate_peek r k, source_iterate_peek r k, ?_, next_iterate_peek r k,
    iterate_peek r k⟩
  rw [answer_peek, next_iterate_peek]

end Parser

end Assembler6502
