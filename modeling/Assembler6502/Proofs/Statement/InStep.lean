/-
Two readings of one line.

Two readings stand at the same place of the same line, each in a frame of its
own: other lines may follow, or none.  Two parsers are in step if they do the
same there: the same value or the same error, and neither of them reads on
behind its line.  The end of a line and the end of the input count as the same.

* **`InStep`** — two parsers do the same on one line in two frames;
* **`InStep.bind`**, **`InStep.ite`**, … — parsers that are put together from such parsers;
* **`InStep.next`**, **`InStep.peek`** — tokens, and the end of the line.

Design notes.  Loops of the grammar are bounded by the bytes that are left of
the source, which are not the same in two frames.  Each turn takes a byte of the
line, so both bounds are above what is left of the line, and that is enough.
So what is left of the line is kept with the place in it.
-/
import Assembler6502.Proofs.Expression.Agreement
import Assembler6502.Proofs.Token.Lines

namespace Assembler6502

open Assembler6502.Parser

theorem Lexeme.bind_isEnding (scopes : Scopes) (l : Lexeme Spelling) :
    (l.bind scopes).1.isEnding = l.isEnding := by
  cases l <;> rfl

theorem Lexeme.eq_of_isEnding {l : Lexeme Name} (h : l.isEnding = true) :
    l = .lineEnd ∨ l = .endOfInput := by
  cases l <;> simp [Lexeme.isEnding] at h ⊢

/-- The line has been read to its end. -/
def Frame.Ended (f : Frame) (c : Cursor) : Prop :=
  (f.behind ≠ [] ∧ c = f.passed) ∨
    (f.behind = [] ∧ ∃ d : Cursor, d.fresh = false ∧ Byte.OneLine d.rest ∧
      d.skipBlanks.rest = [] ∧ c = d.within f)

/-! ### Two readings of a line -/

section

variable (f g : Frame)

/-- Two readings of the same text of a line with at most `n` bytes left, of which `φ` holds. -/
def Standing (φ : Cursor → Prop) (n : Nat) (r s : Reading) : Prop :=
  r.scopes = s.scopes ∧ ∃ c : Cursor, c.fresh = false ∧ Byte.OneLine c.rest ∧ c.rest.length ≤ n ∧
    φ c ∧ r.cursor = c.within f ∧ s.cursor = c.within g

/-- Both readings are on the line. -/
def OnLine : Nat → Reading → Reading → Prop :=
  Standing f g fun _ => True

/-- A token of the line is ahead of both readings. -/
def TokenAhead : Nat → Reading → Reading → Prop :=
  Standing f g fun c => c.skipBlanks.rest ≠ []

/-- The next token is the same in both readings, the first of a text of at most `n` bytes. -/
def Opening (n : Nat) (r s : Reading) : Prop :=
  r.scopes = s.scopes ∧ ∃ d : Cursor, d.rest.length ≤ n ∧ r.cursor.Opens d f ∧ s.cursor.Opens d g

/-- The end of the line is ahead of both readings. -/
def AtEnd : Nat → Reading → Reading → Prop :=
  Standing f g fun c => c.skipBlanks.rest = []

/-- Both readings have come to the end of the line. -/
def Ended (r s : Reading) : Prop :=
  r.scopes = s.scopes ∧ f.Ended r.cursor ∧ g.Ended s.cursor

/-- Both readings are on the line or at its end. -/
def Halted (r s : Reading) : Prop :=
  (∃ n, OnLine f g n r s) ∨ Ended f g r s

/-- The outcomes of two parsers: results that `Q` relates, or the same error on the line. -/
inductive Matched {α β : Type} (Q : α → β → Reading → Reading → Prop) :
    EStateM.Result Diagnostic Reading α → EStateM.Result Diagnostic Reading β → Prop where
  | ok {a : α} {b : β} {r s : Reading} (result : Q a b r s) : Matched Q (.ok a r) (.ok b s)
  | error {d e : Diagnostic} {r s : Reading} (cause : d.cause = e.cause)
      (left : d.location.line = f.number) (right : e.location.line = g.number)
      (place : Halted f g r s) : Matched Q (.error d r) (.error e s)

/-- Both results are the same, and `P` relates the readings. -/
def Same {α : Type} (P : Reading → Reading → Prop) (a b : α) (r s : Reading) : Prop :=
  a = b ∧ P r s

/-- From readings that `P` relates, both parsers give results that `Q` relates, or both fail with
the same error on the line. -/
def InStep {α β : Type} (P : Reading → Reading → Prop) (p : Parser α) (q : Parser β)
    (Q : α → β → Reading → Reading → Prop) : Prop :=
  ∀ ⦃r s⦄, P r s → Matched f g Q (p r) (q s)

/-- Both parsers read the same on the line and stay on it. -/
def Steady {α : Type} (n : Nat) (p q : Parser α) : Prop :=
  InStep f g (OnLine f g n) p q (Same (OnLine f g n))

end

variable {f g : Frame} {n : Nat} {r s : Reading}

theorem Standing.onLine {φ : Cursor → Prop} (h : Standing f g φ n r s) : OnLine f g n r s := by
  obtain ⟨hscopes, c, hfresh, hline, hn, -, hr, hs⟩ := h
  exact ⟨hscopes, c, hfresh, hline, hn, trivial, hr, hs⟩

theorem Standing.mono {φ : Cursor → Prop} {m : Nat} (h : Standing f g φ n r s) (hm : n ≤ m) :
    Standing f g φ m r s := by
  obtain ⟨hscopes, c, hfresh, hline, hn, hφ, hr, hs⟩ := h
  exact ⟨hscopes, c, hfresh, hline, Nat.le_trans hn hm, hφ, hr, hs⟩

theorem Standing.halted {φ : Cursor → Prop} (h : Standing f g φ n r s) : Halted f g r s :=
  .inl ⟨n, h.onLine⟩

theorem Ended.halted (h : Ended f g r s) : Halted f g r s :=
  .inr h

theorem Frame.Ended.statement {c : Cursor} (h : f.Ended c) : c.statement.line = f.number := by
  rcases h with ⟨-, rfl⟩ | ⟨-, d, -, -, -, rfl⟩ <;> rfl

/-- Errors of the statement are on the line. -/
theorem Halted.statement (h : Halted f g r s) :
    r.cursor.statement.line = f.number ∧ s.cursor.statement.line = g.number := by
  rcases h with ⟨n, -, c, -, -, -, -, hr, hs⟩ | ⟨-, hr, hs⟩
  · rw [hr, hs]
    exact ⟨rfl, rfl⟩
  · exact ⟨hr.statement, hs.statement⟩

namespace InStep

variable {α β γ δ : Type} {P : Reading → Reading → Prop} {p : Parser α} {q : Parser β}
  {Q : α → β → Reading → Reading → Prop}

theorem pure {a : α} {b : β} (h : ∀ r s, P r s → Q a b r s) :
    InStep f g P (pure a : Parser α) (pure b : Parser β) Q :=
  fun r s hP => .ok (h r s hP)

theorem fail {e : StatementError} (h : ∀ r s, P r s → Halted f g r s) :
    InStep f g P (fail e : Parser α) (fail e : Parser β) Q := by
  intro r s hP
  obtain ⟨hr, hs⟩ := (h r s hP).statement
  exact .error rfl hr hs (h r s hP)

theorem mono {P' : Reading → Reading → Prop} {Q' : α → β → Reading → Reading → Prop}
    (h : InStep f g P p q Q) (hP : ∀ r s, P' r s → P r s)
    (hQ : ∀ a b r s, Q a b r s → Q' a b r s) : InStep f g P' p q Q' := by
  intro r s hP'
  have hmatched := h (hP r s hP')
  generalize p r = x at hmatched ⊢
  generalize q s = y at hmatched ⊢
  cases hmatched with
  | ok result => exact .ok (hQ _ _ _ _ result)
  | error cause left right place => exact .error cause left right place

theorem imp {Q' : α → β → Reading → Reading → Prop} (h : InStep f g P p q Q)
    (hQ : ∀ a b r s, Q a b r s → Q' a b r s) : InStep f g P p q Q' :=
  h.mono (fun _ _ hP => hP) hQ

theorem standing {φ : Cursor → Prop} (h : InStep f g (OnLine f g n) p q Q) :
    InStep f g (Standing f g φ n) p q Q :=
  h.mono (fun _ _ hP => hP.onLine) fun _ _ _ _ hQ => hQ

/-- A condition that does not speak of the readings may be assumed. -/
theorem intro {φ : Prop} (h : φ → InStep f g P p q Q) :
    InStep f g (fun r s => φ ∧ P r s) p q Q :=
  fun _ _ hP => h hP.1 hP.2

theorem bind {M : α → β → Reading → Reading → Prop} {h : α → Parser γ} {k : β → Parser δ}
    {Q : γ → δ → Reading → Reading → Prop} (hp : InStep f g P p q M)
    (hf : ∀ a b, InStep f g (M a b) (h a) (k b) Q) : InStep f g P (p >>= h) (q >>= k) Q := by
  intro r s hP
  have hmatched := hp hP
  show Matched f g Q (EStateM.bind p h r) (EStateM.bind q k s)
  unfold EStateM.bind
  generalize p r = x at hmatched ⊢
  generalize q s = y at hmatched ⊢
  cases hmatched with
  | ok result => exact hf _ _ result
  | error cause left right place => exact .error cause left right place

/-- What holds of every result of the first parser may be added. -/
theorem and_left {φ : α → Prop} (h : InStep f g P p q Q) (hp : ∀ r a r', p r = .ok a r' → φ a) :
    InStep f g P p q fun a b r s => φ a ∧ Q a b r s := by
  intro r s hP
  have hmatched := h hP
  have hφ := hp r
  generalize p r = x at hmatched hφ ⊢
  generalize q s = y at hmatched ⊢
  cases hmatched with
  | ok result => exact .ok ⟨hφ _ _ rfl, result⟩
  | error cause left right place => exact .error cause left right place

/-- The first parsers give the same result. -/
theorem bind_same {N : Reading → Reading → Prop} {p q : Parser α} {h k : α → Parser γ}
    {Q : γ → γ → Reading → Reading → Prop} (hp : InStep f g P p q (Same N))
    (hf : ∀ a, InStep f g N (h a) (k a) Q) : InStep f g P (p >>= h) (q >>= k) Q :=
  bind hp fun a _ => intro fun hab => hab ▸ hf a

theorem same {N : Reading → Reading → Prop} {a : α} (h : ∀ r s, P r s → N r s) :
    InStep f g P (Pure.pure a : Parser α) (Pure.pure a : Parser α) (Same N) :=
  pure fun r s hP => ⟨rfl, h r s hP⟩

theorem ite {φ : Prop} [Decidable φ] {p' : Parser α} {q' : Parser β}
    (hpos : φ → InStep f g P p q Q) (hneg : ¬ φ → InStep f g P p' q' Q) :
    InStep f g P (if φ then p else p') (if φ then q else q') Q := by
  split
  · next h => exact hpos h
  · next h => exact hneg h

theorem lift {x : Except StatementError α} (h : ∀ r s, P r s → Halted f g r s) :
    InStep f g P (lift x) (lift x) (Same P) := by
  cases x with
  | ok a => exact same fun _ _ hP => hP
  | error e => exact fail h

theorem scopes {φ : Cursor → Prop} :
    InStep f g (Standing f g φ n) scopes scopes (Same (Standing f g φ n)) :=
  fun _ _ h => .ok ⟨h.1, h⟩

/-- Both bounds are above what is left of the line. -/
theorem remaining {h k : Nat → Parser α} {Q : α → α → Reading → Reading → Prop}
    (hf : ∀ m a b, m ≤ n → m ≤ a → m ≤ b → InStep f g (OnLine f g m) (h a) (k b) Q) :
    InStep f g (OnLine f g n) (remaining >>= h) (remaining >>= k) Q := by
  rintro r s ⟨hscopes, c, hfresh, hline, hn, hφ, hr, hs⟩
  have hleft : c.rest.length ≤ r.cursor.rest.length := by simp [hr, Cursor.within]
  have hright : c.rest.length ≤ s.cursor.rest.length := by simp [hs, Cursor.within]
  exact hf c.rest.length _ _ hn hleft hright ⟨hscopes, c, hfresh, hline, Nat.le_refl _, hφ, hr, hs⟩

end InStep

/-! ### Tokens -/

theorem Cursor.skipBlanks_rest_of_nil {c : Cursor} (h : c.rest = []) : c.skipBlanks.rest = [] := by
  have hsuffix := c.skipBlanks_suffix
  rwa [h, List.suffix_nil] at hsuffix

theorem Frame.ended_beyond {c : Cursor} (f : Frame) (hfresh : c.fresh = false)
    (hblank : c.skipBlanks.rest = []) : f.Ended (f.beyond c.skipBlanks) := by
  have hline : Byte.OneLine c.skipBlanks.rest := by simp [hblank, Byte.OneLine]
  unfold Frame.beyond
  split
  · next h =>
    exact .inr ⟨h, c.skipBlanks, c.skipBlanks_fresh.trans hfresh, hline,
      Cursor.skipBlanks_rest_of_nil hblank, rfl⟩
  · next h => exact .inl ⟨h, rfl⟩

section

variable {c : Cursor} (hfresh : c.fresh = false) (hblank : c.skipBlanks.rest = [])
  (hr : r.cursor = c.within f)

include hfresh hblank hr

/-- The token at the end of a line is read. -/
theorem next_of_blank :
    Parser.next r = .ok ⟨f.ending, ⟨f.number, c.skipBlanks.position.column⟩⟩
      { r with cursor := f.beyond c.skipBlanks } := by
  have hnext : r.cursor.next =
      (.ok ⟨f.ending, ⟨f.number, c.skipBlanks.position.column⟩⟩, f.beyond c.skipBlanks) := by
    rw [hr]
    exact Cursor.next_within_of_blank hfresh hblank
  rw [next_of_cursor hnext, f.bind_ending]

theorem peek_of_blank :
    Parser.peek r = .ok ⟨f.ending, ⟨f.number, c.skipBlanks.position.column⟩⟩ r := by
  unfold Parser.peek
  rw [next_of_blank hfresh hblank hr]

end

theorem OnLine.cases (h : OnLine f g n r s) : TokenAhead f g n r s ∨ AtEnd f g n r s := by
  obtain ⟨hscopes, c, hfresh, hline, hn, -, hr, hs⟩ := h
  by_cases hblank : c.skipBlanks.rest = []
  · exact .inr ⟨hscopes, c, hfresh, hline, hn, hblank, hr, hs⟩
  · exact .inl ⟨hscopes, c, hfresh, hline, hn, hblank, hr, hs⟩

/-- The same token of a line. -/
structure SameToken (t u : Token Name) : Prop where
  isEnding : t.lexeme.isEnding = false
  lexeme : t.lexeme = u.lexeme
  column : t.position.column = u.position.column

/-- Both tokens end the line. -/
structure BothEnd (t u : Token Name) : Prop where
  left : t.lexeme.isEnding = true
  right : u.lexeme.isEnding = true

namespace InStep

theorem next_opening : InStep f g (Opening f g n) next next fun t u r s =>
    SameToken t u ∧ ∃ m < n, OnLine f g m r s := by
  rintro r s ⟨hscopes, d, hn, ⟨hfresh, hline, hsolid, hr⟩, ⟨-, -, -, hs⟩⟩
  have hshort : d.scan.2.rest.length < n := by
    have hlt := Cursor.length_scan_lt hsolid
    omega
  have hregular := Cursor.scan_regular hsolid
  have hfresh' : d.scan.2.fresh = false := hregular.fresh.trans hfresh
  have hline' : Byte.OneLine d.scan.2.rest := hline.of_suffix d.scan_suffix
  unfold Parser.next
  rw [hr, hs]
  cases hscan : d.scan.1 with
  | ok l =>
    -- a name is bound in the scopes, and both readings have the same
    have hword : (l.bind r.scopes).1.isEnding = false := by
      rw [Lexeme.bind_isEnding]
      exact hregular.isEnding hscan
    refine .ok ⟨⟨hword, ?_, rfl⟩, _, hshort, ?_, _, hfresh', hline', Nat.le_refl _, trivial,
      rfl, rfl⟩
    · show (l.bind r.scopes).1 = (l.bind s.scopes).1
      rw [hscopes]
    · show (l.bind r.scopes).2 = (l.bind s.scopes).2
      rw [hscopes]
  | error e =>
    exact .error rfl rfl rfl
      (.inl ⟨_, hscopes, _, hfresh', hline', Nat.le_refl _, trivial, rfl, rfl⟩)

/-- The next token of a line is the same in both readings. -/
theorem next_ahead : InStep f g (TokenAhead f g n) next next fun t u r s =>
    SameToken t u ∧ ∃ m < n, OnLine f g m r s := by
  refine next_opening.mono ?_ fun _ _ _ _ h => h
  rintro r s ⟨hscopes, c, hfresh, hline, hn, hsolid, hr, hs⟩
  refine ⟨hscopes, c.skipBlanks, Nat.le_trans c.skipBlanks_suffix.length_le hn, ?_, ?_⟩
  · exact hr ▸ Cursor.opens_within hfresh hline hsolid
  · exact hs ▸ Cursor.opens_within hfresh hline hsolid

theorem next_atEnd : InStep f g (AtEnd f g n) next next fun t u r s =>
    BothEnd t u ∧ Ended f g r s := by
  rintro r s ⟨hscopes, c, hfresh, -, -, hblank, hr, hs⟩
  rw [next_of_blank hfresh hblank hr, next_of_blank hfresh hblank hs]
  exact .ok ⟨⟨f.isEnding_ending, g.isEnding_ending⟩, hscopes, f.ended_beyond hfresh hblank,
    g.ended_beyond hfresh hblank⟩

theorem peek_ahead : InStep f g (TokenAhead f g n) peek peek fun t u r s =>
    SameToken t u ∧ TokenAhead f g n r s := by
  intro r s hahead
  have hmatched := next_ahead hahead
  obtain ⟨-, c, hfresh, hline, hn, hsolid, hr, hs⟩ := hahead
  unfold Parser.peek
  generalize Parser.next r = x at hmatched ⊢
  generalize Parser.next s = y at hmatched ⊢
  cases hmatched with
  | ok result =>
    -- the cursors are put back, so only the scopes are left of the reading
    obtain ⟨htoken, m, -, hscopes, -⟩ := result
    exact .ok ⟨htoken, hscopes, c, hfresh, hline, hn, hsolid, hr, hs⟩
  | error cause left right place =>
    refine .error cause left right (.inl ⟨n, ?_, c, hfresh, hline, hn, trivial, hr, hs⟩)
    rcases place with ⟨m, hscopes, -⟩ | ⟨hscopes, -⟩ <;> exact hscopes

theorem peek_atEnd : InStep f g (AtEnd f g n) peek peek fun t u r s =>
    BothEnd t u ∧ AtEnd f g n r s := by
  rintro r s ⟨hscopes, c, hfresh, hline, hn, hblank, hr, hs⟩
  rw [peek_of_blank hfresh hblank hr, peek_of_blank hfresh hblank hs]
  exact .ok ⟨⟨f.isEnding_ending, g.isEnding_ending⟩, hscopes, c, hfresh, hline, hn, hblank, hr, hs⟩

section

variable {α : Type} {Q : α → α → Reading → Reading → Prop} {h k : Token Name → Parser α}

/-- Goes on behind the next token, which is the same in both readings. -/
theorem word (hword : ∀ l p q, l.isEnding = false → p.column = q.column → ∀ m < n,
      InStep f g (OnLine f g m) (h ⟨l, p⟩) (k ⟨l, q⟩) Q) :
    InStep f g (TokenAhead f g n) (next >>= h) (next >>= k) Q := by
  refine bind next_ahead ?_
  rintro ⟨l, p⟩ ⟨l', q⟩ r s ⟨⟨hl, rfl, hcolumn⟩, m, hm, honLine⟩
  exact hword l p q hl hcolumn m hm honLine

/-- Looks at the next token, which is the same in both readings. -/
theorem look (hword : ∀ l p q, l.isEnding = false →
      InStep f g (TokenAhead f g n) (h ⟨l, p⟩) (k ⟨l, q⟩) Q) :
    InStep f g (TokenAhead f g n) (peek >>= h) (peek >>= k) Q := by
  refine bind peek_ahead ?_
  rintro ⟨l, p⟩ ⟨l', q⟩ r s ⟨⟨hl, rfl, -⟩, hahead⟩
  exact hword l p q hl hahead

/-- Goes on behind the next token, or behind the end of the line. -/
theorem next (hword : ∀ l p q, l.isEnding = false → p.column = q.column → ∀ m < n,
      InStep f g (OnLine f g m) (h ⟨l, p⟩) (k ⟨l, q⟩) Q)
    (hend : ∀ l l' p q, l.isEnding = true → l'.isEnding = true →
      InStep f g (Ended f g) (h ⟨l, p⟩) (k ⟨l', q⟩) Q) :
    InStep f g (OnLine f g n) (next >>= h) (next >>= k) Q := by
  intro r s honLine
  rcases honLine.cases with hahead | hatEnd
  · exact word hword hahead
  · refine bind next_atEnd ?_ hatEnd
    rintro ⟨l, p⟩ ⟨l', q⟩ r s ⟨⟨hl, hl'⟩, hended⟩
    exact hend l l' p q hl hl' hended

/-- Looks at the next token, or at the end of the line. -/
theorem peek (hword : ∀ l p q, l.isEnding = false →
      InStep f g (TokenAhead f g n) (h ⟨l, p⟩) (k ⟨l, q⟩) Q)
    (hend : ∀ l l' p q, l.isEnding = true → l'.isEnding = true →
      InStep f g (AtEnd f g n) (h ⟨l, p⟩) (k ⟨l', q⟩) Q) :
    InStep f g (OnLine f g n) (peek >>= h) (peek >>= k) Q := by
  intro r s honLine
  rcases honLine.cases with hahead | hatEnd
  · exact look hword hahead
  · refine bind peek_atEnd ?_ hatEnd
    rintro ⟨l, p⟩ ⟨l', q⟩ r s ⟨⟨hl, hl'⟩, hatEnd⟩
    exact hend l l' p q hl hl' hatEnd

end

end InStep

theorem Lexeme.ne_of_isEnding {ν : Type} {l m : Lexeme ν} (h : l.isEnding = true)
    (hm : m.isEnding = false) : l ≠ m := by
  rintro rfl
  rw [h] at hm
  cases hm

end Assembler6502
