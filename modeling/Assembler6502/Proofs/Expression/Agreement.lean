/-
Reading the same expression twice.

Both passes read the same bytes, but against different scopes and at addresses
that may differ.  `Agree` relates two parsers by what holds whenever both of
them succeed, so that an error of either pass needs no further care.

* **`Agree.bind`** — agreement goes from parser to parser along a computation;
* **`Parser.next_agree`** — from the same cursor the same token is read, up to
  what a name stands for;
* **`Expr.parse_agree`** — two readings of an expression use the same tokens
  and build trees of the same shape.

Design notes.  `Parallel` collects what the grammar of expressions asks of a
relation between two readings.  The relation need not survive the token that
ends an operand, since no expression reads on behind it.  Operators have to keep
the relation between trees only if the readings can come to one.
-/
import Assembler6502.Statement.Progress

namespace Assembler6502

/-- Two readings at the same place of the same source with the same scopes open.  What the names
are bound to may differ. -/
structure Reading.Abreast (r s : Reading) : Prop where
  source : r.source = s.source
  cursor : r.cursor = s.cursor
  path : r.scopes.path = s.scopes.path

theorem Scopes.classify_text (scopes : Scopes) (w : Spelling) :
    (scopes.classify w).1.text = w.text := by
  unfold classify
  split <;> rfl

namespace Lexeme

/-- The same lexeme, but for names, which are related by `N`. -/
inductive Alike (N : Name → Name → Prop) : Lexeme Name → Lexeme Name → Prop where
  | name {m n : Name} (h : N m n) : Alike N (.name m) (.name n)
  | same {l : Lexeme Name} (h : ∀ n, l ≠ .name n) : Alike N l l

/-- Whether the lexeme ends an operand. -/
def endsOperand {ν : Type} : Lexeme ν → Bool
  | comma | lineEnd | endOfInput => true
  | _ => false

theorem bind_path (scopes : Scopes) (l : Lexeme Spelling) :
    (l.bind scopes).2.path = scopes.path := by
  cases l with
  | name w =>
    simp only [bind, Scopes.classify]
    split <;> rfl
  | _ => rfl

theorem bind_endsOperand (scopes : Scopes) (l : Lexeme Spelling) :
    (l.bind scopes).1.endsOperand = l.endsOperand := by
  cases l <;> rfl

theorem bind_alike {N : Name → Name → Prop} {σ τ : Scopes} {l : Lexeme Spelling}
    (h : ∀ w, l = .name w → N (σ.classify w).1 (τ.classify w).1) :
    Alike N (l.bind σ).1 (l.bind τ).1 := by
  cases l with
  | name w => exact .name (h w rfl)
  | _ => exact .same nofun

theorem Alike.operator? {N : Name → Name → Prop} {a b : Lexeme Name} (h : Alike N a b) :
    a.operator? = b.operator? := by
  cases h <;> rfl

/-- Being a given lexeme that is no name does not tell the two apart. -/
theorem Alike.eq_iff {N : Name → Name → Prop} {a b l : Lexeme Name} (h : Alike N a b)
    (hl : ∀ n, l ≠ .name n) : a = l ↔ b = l := by
  cases h with
  | name => exact ⟨fun h => absurd h.symm (hl _), fun h => absurd h.symm (hl _)⟩
  | same => exact Iff.rfl

end Lexeme

namespace Parser

variable {α β γ δ : Type} {P R : Reading → Reading → Prop} {N : Name → Name → Prop} {O : Prop}

/-! ### Agreement -/

/-- Whenever both parsers succeed, started from readings that `P` relates, `Q` relates what they
give and where they end. -/
def Agree (P : Reading → Reading → Prop) (p : Parser α) (q : Parser β)
    (Q : α → β → Reading → Reading → Prop) : Prop :=
  ∀ ⦃r s⦄, P r s → ∀ ⦃a r'⦄, p r = .ok a r' → ∀ ⦃b s'⦄, q s = .ok b s' → Q a b r' s'

namespace Agree

variable {p : Parser α} {q : Parser β} {Q : α → β → Reading → Reading → Prop}

theorem pure {a : α} {b : β} (h : ∀ r s, P r s → Q a b r s) :
    Agree P (pure a : Parser α) (pure b : Parser β) Q := by
  intro r s hP a' r' hp b' s' hq
  cases hp
  cases hq
  exact h r s hP

theorem fail_left {e : StatementError} : Agree P (fail e : Parser α) q Q := by
  intro r s _ a r' hp
  cases hp

theorem fail_right {e : StatementError} : Agree P p (fail e : Parser β) Q := by
  intro r s _ a r' _ b s' hq
  cases hq

theorem mono {P' : Reading → Reading → Prop} {Q' : α → β → Reading → Reading → Prop}
    (h : Agree P p q Q) (hP : ∀ r s, P' r s → P r s) (hQ : ∀ a b r s, Q a b r s → Q' a b r s) :
    Agree P' p q Q' :=
  fun r s hr _ _ hp _ _ hq => hQ _ _ _ _ (h (hP r s hr) hp hq)

/-- A condition that does not speak of the readings may be assumed. -/
theorem intro {φ : Prop} (h : φ → Agree P p q Q) : Agree (fun r s => φ ∧ P r s) p q Q :=
  fun _ _ hP => h hP.1 hP.2

theorem bind {M : α → β → Reading → Reading → Prop} {f : α → Parser γ} {g : β → Parser δ}
    {Q : γ → δ → Reading → Reading → Prop} (hp : Agree P p q M)
    (hf : ∀ a b, Agree (M a b) (f a) (g b) Q) : Agree P (p >>= f) (q >>= g) Q := by
  intro r s hP c r' hpr d s' hqs
  change EStateM.bind p f r = _ at hpr
  change EStateM.bind q g s = _ at hqs
  unfold EStateM.bind at hpr hqs
  cases hr : p r with
  | error e t =>
    rw [hr] at hpr
    cases hpr
  | ok a t =>
    cases hs : q s with
    | error e u =>
      rw [hs] at hqs
      cases hqs
    | ok b u =>
      rw [hr] at hpr
      rw [hs] at hqs
      exact hf a b (hp hP hr hs) hpr hqs

theorem lift {x : Except StatementError α} {y : Except StatementError β}
    (h : ∀ a b, x = .ok a → y = .ok b → ∀ r s, P r s → Q a b r s) :
    Agree P (Parser.lift x) (Parser.lift y) Q := by
  cases x with
  | error e => exact fail_left
  | ok a =>
    cases y with
    | error e => exact fail_right
    | ok b => exact pure (h a b rfl rfl)

theorem remaining (hP : ∀ r s, P r s → r.cursor = s.cursor) :
    Agree P Parser.remaining Parser.remaining fun n m r s => n = m ∧ P r s := by
  intro r s h n r' hn m s' hm
  cases hn
  cases hm
  exact ⟨by rw [hP _ _ h], h⟩

end Agree

/-! ### Tokens -/

/-- What reading a token does: it classifies the name that the token may be. -/
theorem next_eq_ok {r r' : Reading} {t : Token Name} (h : next r = .ok t r') :
    ∃ token, r.cursor.next = (.ok token, r'.cursor) ∧
      t = ⟨(token.lexeme.bind r.scopes).1, token.position⟩ ∧
      r' = { r with cursor := r'.cursor, scopes := (token.lexeme.bind r.scopes).2 } := by
  unfold next at h
  split at h
  · next token cursor hc =>
    cases h
    exact ⟨token, hc, rfl, rfl⟩
  · cases h

theorem next_of_cursor {r : Reading} {token : Token Spelling} {cursor : Cursor}
    (h : r.cursor.next = (.ok token, cursor)) :
    next r = .ok ⟨(token.lexeme.bind r.scopes).1, token.position⟩
      { r with cursor, scopes := (token.lexeme.bind r.scopes).2 } := by
  rw [next, h]

theorem peek_of_cursor {r : Reading} {token : Token Spelling} {cursor : Cursor}
    (h : r.cursor.next = (.ok token, cursor)) :
    peek r = .ok ⟨(token.lexeme.bind r.scopes).1, token.position⟩
      { r with scopes := (token.lexeme.bind r.scopes).2 } := by
  rw [peek, next_of_cursor h]

theorem peek_eq_ok {r r' : Reading} {t : Token Name} (h : peek r = .ok t r') :
    ∃ token cursor, r.cursor.next = (.ok token, cursor) ∧
      t = ⟨(token.lexeme.bind r.scopes).1, token.position⟩ ∧
      r' = { r with scopes := (token.lexeme.bind r.scopes).2 } := by
  unfold peek at h
  split at h
  · next u read hn =>
    obtain ⟨token, hc, rfl, hread⟩ := next_eq_ok hn
    cases h
    refine ⟨token, _, hc, rfl, ?_⟩
    rw [hread]
  · cases h

/-- The token that was looked at is the token that is read next. -/
theorem next_endsOperand_of_peek {r r' s : Reading} {t u : Token Name} (hp : peek r = .ok t r')
    (hn : next r' = .ok u s) : u.lexeme.endsOperand = t.lexeme.endsOperand := by
  obtain ⟨token, cursor, hc, rfl, rfl⟩ := peek_eq_ok hp
  obtain ⟨token', hc', rfl, -⟩ := next_eq_ok hn
  rw [hc] at hc'
  cases hc'
  rw [Lexeme.bind_endsOperand, Lexeme.bind_endsOperand]

/-- The next token, if there is one, does not end the operand. -/
def Inside (r : Reading) : Prop :=
  ∀ t r', next r = .ok t r' → t.lexeme.endsOperand = false

/-- A relation between readings that the tokens of an expression keep, what it makes of the names,
and what has to hold for an operator to stand ahead. -/
structure Reads (R : Reading → Reading → Prop) (N : Name → Name → Prop) (O : Prop) : Prop where
  cursor : ∀ r s, R r s → r.cursor = s.cursor
  next : Agree R next next fun t u r s =>
    t.lexeme.Alike N u.lexeme ∧ (t.lexeme.endsOperand = false → R r s)
  peek : Agree R peek peek fun t u r s => t.lexeme.Alike N u.lexeme ∧ R r s
  operator : ∀ ⦃r s⦄, R r s → ∀ ⦃t r'⦄, Parser.peek r = .ok t r' →
    t.lexeme.operator?.isSome = true → O

/-- Reading the operator that was looked at. -/
theorem Reads.next_operator (h : Reads R N O) :
    Agree (fun r s => R r s ∧ Inside r ∧ O) Parser.next Parser.next fun _ _ r s => O ∧ R r s := by
  rintro r s ⟨hR, hin, hO⟩ t r' ht u s' hu
  obtain ⟨-, hkeep⟩ := h.next hR ht hu
  exact ⟨hO, hkeep (hin t r' ht)⟩

end Parser

open Assembler6502.Parser

variable {R : Reading → Reading → Prop} {N : Name → Name → Prop} {E : Expr → Expr → Prop}
  {O : Prop} {c d : Context}

/-! ### Expressions -/

namespace Expr

/-- What two readings of an expression need so that `E` relates their trees: it relates the
factors, and operators keep it. -/
structure Parallel (R : Reading → Reading → Prop) (N : Name → Name → Prop)
    (E : Expr → Expr → Prop) (O : Prop) (c d : Context) : Prop extends Reads R N O where
  constant : ∀ v, E (.value v false) (.value v false)
  here : E (.value c.address true) (.value d.address true)
  name : ∀ m n, N m n → Agree R (ofName c.pass m) (ofName d.pass n) fun e f r s => E e f ∧ R r s
  unary : O → ∀ op e f, E e f → E (.unary op e) (.unary op f)
  binary : O → ∀ op e f e' f', E e f → E e' f' → E (.binary op e e') (.binary op f f')

theorem factor_agree (h : Parallel R N E O c d) {p q : Parser Expr}
    (hn : Agree R p q fun e f r s => E e f ∧ R r s) :
    Agree R (factor c p) (factor d q) fun e f r s => E e f ∧ R r s := by
  refine .bind h.next fun t u => .intro fun halike => ?_
  obtain ⟨a, _⟩ := t
  obtain ⟨b, _⟩ := u
  cases halike with
  | name hN => exact (h.name _ _ hN).mono (fun r s hR => hR rfl) fun _ _ _ _ hQ => hQ
  | same hs =>
    cases a with
    | name n => exact absurd rfl (hs n)
    | constant v => exact .pure fun r s hR => ⟨h.constant v, hR rfl⟩
    | operator op =>
      cases op with
      | star => exact .pure fun r s hR => ⟨h.here, hR rfl⟩
      | _ => exact .fail_left
    | leftParen =>
      refine .bind (hn.mono (fun r s hR => hR rfl) fun _ _ _ _ hQ => hQ) fun e f =>
        .intro fun hE => .bind h.next fun close close' => .intro fun hclose => ?_
      -- both readings see the right parenthesis, or the first one fails
      by_cases hp : close.lexeme = .rightParen
      · rw [if_pos hp, if_pos ((hclose.eq_iff (l := .rightParen) nofun).mp hp)]
        exact .pure fun r s hR => ⟨hE, hR (by rw [hp]; rfl)⟩
      · rw [if_neg hp]
        exact .fail_left
    | _ => exact .fail_left

/-- Both readings see the same operator, and it belongs to the expression. -/
theorem peekOperator_agree (h : Reads R N O) {α : Type} (kind : Operator → Option α) :
    Agree R (peekOperator kind) (peekOperator kind) fun o o' r s =>
      o = o' ∧ R r s ∧ (o.isSome = true → Inside r ∧ O) := by
  intro r s hR o r' ho o' s' ho'
  change EStateM.bind peek _ r = _ at ho
  change EStateM.bind peek _ s = _ at ho'
  unfold EStateM.bind at ho ho'
  split at ho
  · next t rt ht =>
    cases ho
    split at ho'
    · next u ru hu =>
      cases ho'
      obtain ⟨halike, hR'⟩ := h.peek hR ht hu
      refine ⟨by rw [halike.operator?], hR', fun hsome => ?_⟩
      -- only operators have a kind, and they end no operand
      cases hl : t.lexeme with
      | operator op =>
        refine ⟨fun t' r'' hnext => ?_, h.operator hR ht (by rw [hl]; rfl)⟩
        rw [next_endsOperand_of_peek ht hnext, hl]
        rfl
      | _ => simp [hl, Lexeme.operator?] at hsome
    · cases ho'
  · cases ho

theorem unaryFactor_agree (h : Parallel R N E O c d) {p q : Parser Expr}
    (hn : Agree R p q fun e f r s => E e f ∧ R r s) :
    Agree R (unaryFactor c p) (unaryFactor d q) fun e f r s => E e f ∧ R r s := by
  refine .bind (peekOperator_agree h.toReads _) fun o o' => .intro fun ho => ?_
  subst ho
  cases o with
  | none => exact (factor_agree h hn).mono (fun r s hR => hR.1) fun _ _ _ _ hQ => hQ
  | some op =>
    refine .bind (h.next_operator.mono (fun r s hR => ⟨hR.1, hR.2 rfl⟩) fun _ _ _ _ hQ => hQ)
      fun _ _ => .intro fun hO => .bind (factor_agree h hn) fun e f => .pure fun r s hEf => ?_
    exact ⟨h.unary hO op e f hEf.1, hEf.2⟩

theorem chain_agree (h : Parallel R N E O c d) {kind : Operator → Option BinaryOp}
    {p q : Parser Expr} (ho : Agree R p q fun e f r s => E e f ∧ R r s) (n : Nat) {e f : Expr}
    (hE : E e f) : Agree R (chain kind p n e) (chain kind q n f) fun e f r s => E e f ∧ R r s := by
  induction n generalizing e f with
  | zero => exact .pure fun r s hR => ⟨hE, hR⟩
  | succ n ih =>
    refine .bind (peekOperator_agree h.toReads kind) fun o o' => .intro fun hoo => ?_
    subst hoo
    cases o with
    | none => exact .pure fun r s hR => ⟨hE, hR.1⟩
    | some op =>
      refine .bind (h.next_operator.mono (fun r s hR => ⟨hR.1, hR.2 rfl⟩) fun _ _ _ _ hQ => hQ)
        fun _ _ => .intro fun hO => .bind ho fun e' f' => .intro fun hE' => ?_
      exact ih (h.binary hO op e f e' f' hE hE')

theorem operands_agree (h : Parallel R N E O c d) {kind : Operator → Option BinaryOp}
    {p q : Parser Expr} (ho : Agree R p q fun e f r s => E e f ∧ R r s) :
    Agree R (operands kind p) (operands kind q) fun e f r s => E e f ∧ R r s := by
  refine .bind ho fun e f => .intro fun hE => .bind (.remaining h.cursor) fun n m =>
    .intro fun hn => ?_
  subst hn
  exact chain_agree h ho n hE

theorem expression_agree (h : Parallel R N E O c d) (n : Nat) :
    Agree R (expression c n) (expression d n) fun e f r s => E e f ∧ R r s := by
  induction n with
  | zero => exact .fail_left
  | succ n ih => exact operands_agree h (operands_agree h (unaryFactor_agree h ih))

theorem parse_agree (h : Parallel R N E O c d) :
    Agree R (parse c) (parse d) fun e f r s => E e f ∧ R r s := by
  refine .bind (.remaining h.cursor) fun n m => .intro fun hn => ?_
  subst hn
  exact expression_agree h (n + 1)

end Expr

theorem Value.parse_agree (h : Expr.Parallel R N E O c d) :
    Agree R (Value.parse c) (Value.parse d) fun v w r s =>
      (∃ e f, E e f ∧ e.evaluate c.pass = .ok v ∧ f.evaluate d.pass = .ok w) ∧ R r s :=
  .bind (Expr.parse_agree h) fun e f => .intro fun hE =>
    .lift fun _ _ hv hw _ _ hR => ⟨⟨e, f, hE, hv, hw⟩, hR⟩

/-! ### Readings abreast -/

namespace Parser

/-- From the same place the same token is read, up to what a name stands for. -/
theorem next_abreast :
    Agree Reading.Abreast next next fun t u r s =>
      (t.lexeme.Alike (fun m n => m.text = n.text) u.lexeme ∧ t.position = u.position) ∧
        r.Abreast s := by
  intro r s h t r' ht u s' hu
  obtain ⟨token, hc, rfl, hr⟩ := next_eq_ok ht
  obtain ⟨token', hc', rfl, hs⟩ := next_eq_ok hu
  rw [← h.cursor, hc, Prod.mk.injEq, Except.ok.injEq] at hc'
  obtain ⟨rfl, hcursor⟩ := hc'
  refine ⟨⟨Lexeme.bind_alike fun w _ => ?_, rfl⟩, ?_, hcursor, ?_⟩
  · rw [Scopes.classify_text, Scopes.classify_text]
  · rw [hr, hs]
    exact h.source
  · rw [hr, hs]
    exact (Lexeme.bind_path _ _).trans (h.path.trans (Lexeme.bind_path _ _).symm)

theorem peek_abreast :
    Agree Reading.Abreast peek peek fun t u r s =>
      t.lexeme.Alike (fun m n => m.text = n.text) u.lexeme ∧ r.Abreast s := by
  intro r s h t r' ht u s' hu
  obtain ⟨token, cursor, hc, rfl, rfl⟩ := peek_eq_ok ht
  obtain ⟨token', cursor', hc', rfl, rfl⟩ := peek_eq_ok hu
  rw [← h.cursor, hc] at hc'
  cases hc'
  refine ⟨Lexeme.bind_alike fun w _ => ?_, h.source, h.cursor, ?_⟩
  · rw [Scopes.classify_text, Scopes.classify_text]
  · exact (Lexeme.bind_path _ _).trans (h.path.trans (Lexeme.bind_path _ _).symm)

theorem reads_abreast : Reads Reading.Abreast (fun m n => m.text = n.text) True where
  cursor _ _ h := h.cursor
  next := next_abreast.mono (fun _ _ h => h) fun _ _ _ _ h => ⟨h.1.1, fun _ => h.2⟩
  peek := peek_abreast
  operator _ _ _ _ _ _ _ := trivial

end Parser

/-- The value of a name is found without reading on: it comes with the name, it is the placeholder,
or it is looked up among the names that have one. -/
theorem Expr.ofName_eq_ok {pass : Pass} {name : Name} {r r' : Reading} {e : Expr}
    (h : ofName pass name r = .ok e r') :
    r' = r ∧
      ((∃ v, name.symbol.value = some v ∧ e = .value v (name.symbol.kind = .label)) ∨
        (name.symbol.value = none ∧ pass = .first ∧
          e = .value Pass.placeholder (name.symbol.kind = .label)) ∨
        (name.symbol.value = none ∧ pass = .second ∧
          ∃ d, r.scopes.resolve name.text = some d ∧ e = .value d.value (d.kind = .label))) := by
  obtain ⟨text, kind, value⟩ := name
  cases value with
  | some v =>
    cases h
    exact ⟨rfl, .inl ⟨v, rfl, rfl⟩⟩
  | none =>
    cases pass with
    | first =>
      cases h
      exact ⟨rfl, .inr (.inl ⟨rfl, rfl, rfl⟩)⟩
    | second =>
      have hscopes : Parser.scopes r = .ok r.scopes r := rfl
      simp only [ofName, Bind.bind, EStateM.bind, hscopes] at h
      cases hd : r.scopes.resolve text with
      | none =>
        rw [hd] at h
        cases h
      | some d =>
        rw [hd] at h
        cases h
        exact ⟨rfl, .inr (.inr ⟨rfl, rfl, d, rfl, rfl⟩)⟩

/-- The trees that the two passes read have nothing in common that this does not ask for. -/
theorem Expr.parallel_abreast :
    Parallel Reading.Abreast (fun m n => m.text = n.text) (fun _ _ => True) True c d where
  toReads := Parser.reads_abreast
  constant _ := trivial
  here := trivial
  name m n _ := by
    intro r s h e r' he f s' hf
    rw [(ofName_eq_ok he).1, (ofName_eq_ok hf).1]
    exact ⟨trivial, h⟩
  unary _ _ _ _ _ := trivial
  binary _ _ _ _ _ _ _ _ := trivial

theorem Value.parse_abreast :
    Agree Reading.Abreast (Value.parse c) (Value.parse d) fun _ _ r s => r.Abreast s :=
  (Value.parse_agree Expr.parallel_abreast).mono (fun _ _ h => h) fun _ _ _ _ h => h.2

end Assembler6502
