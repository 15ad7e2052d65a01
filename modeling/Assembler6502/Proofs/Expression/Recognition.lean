/-
Expressions are read as the grammar says.

The parser of expressions reads tokens from a cursor, with one token of
lookahead, and looks names up as it goes.  The grammar is a relation over lists
of lexemes.  In the second pass the parser accepts exactly the sentences of the
grammar whose names have a value, and builds what the names make of the phrase.

* **`Cursor.Sentence`** — an expression stands at the cursor, up to a token that
  does not go on with it;
* **`Sentence.unique`** — at most one does;
* **`Expr.expression_sound`** — what the parser reads is a sentence;
* **`Expr.reads_of_derives`** — every sentence is read;
* **`Expr.parse_iff_sentence`** — both together, with the stack program and the
  value that come of it.

Design notes.  A part of an expression is read by a parser of its own.  Operands
are read up to the first token that cannot go on with them, so the place where a
part ends is in its statement (`Part.Ends`).  Each token takes a byte, so the
bytes that are left are enough turns for every loop.
-/
import Assembler6502.Proofs.Expression.Phrase
import Assembler6502.Proofs.Statement.Exactness

namespace Assembler6502

open Assembler6502.Parser

theorem Parser.lift_eq_ok {α : Type} {result : Except StatementError α} {x : α} {r r' : Reading}
    (h : lift result r = .ok x r') : result = .ok x ∧ r' = r := by
  cases result with
  | ok y =>
    cases h
    exact ⟨rfl, rfl⟩
  | error error => cases h

/-! ### Lexemes at a cursor -/

namespace Cursor

/-- The lexemes that are read between two cursors. -/
inductive Tokens : Cursor → List (Lexeme Spelling) → Cursor → Prop where
  | nil (c : Cursor) : Tokens c [] c
  | cons {c c₁ c' : Cursor} {t : Token Spelling} {ts : List (Lexeme Spelling)}
      (first : c.next = (.ok t, c₁)) (rest : Tokens c₁ ts c') : Tokens c (t.lexeme :: ts) c'

/-- A token stands at the cursor, and it is none of the operators. -/
def Stops (ops : List BinaryOp) (c : Cursor) : Prop :=
  ∃ t c', c.next = (.ok t, c') ∧ ∀ op ∈ ops, t.lexeme ≠ .operator op.sign

/-- A token stands at the cursor, and it is no operator between operands. -/
def EndsExpression (c : Cursor) : Prop :=
  ∃ t c', c.next = (.ok t, c') ∧ ∀ op : BinaryOp, t.lexeme ≠ .operator op.sign

/-- An expression stands between the two cursors, and the token behind it does not go on with
it. -/
structure Sentence (c : Cursor) (ts : List (Lexeme Spelling)) (p : Phrase) (c' : Cursor) :
    Prop where
  tokens : c.Tokens ts c'
  derives : Derives .expression ts p
  stops : c'.EndsExpression

variable {c c₁ c' d : Cursor} {ts us : List (Lexeme Spelling)} {l : Lexeme Spelling} {p q : Phrase}

/-- The first `n` lexemes, as far as they scan. -/
def firstLexemes : Nat → Cursor → List (Lexeme Spelling)
  | 0, _ => []
  | n + 1, c =>
    match c.next with
    | (.ok t, c') => t.lexeme :: c'.firstLexemes n
    | (.error _, _) => []

theorem exists_tokens (n : Nat) (c : Cursor) : ∃ c', c.Tokens (c.firstLexemes n) c' := by
  induction n generalizing c with
  | zero => exact ⟨c, .nil c⟩
  | succ n ih =>
    unfold firstLexemes
    split
    · next t c₁ hnext =>
      obtain ⟨c', hrest⟩ := ih c₁
      exact ⟨c', .cons hnext hrest⟩
    · exact ⟨c, .nil c⟩

theorem Tokens.one {t : Token Spelling} (h : c.next = (.ok t, c')) : c.Tokens [t.lexeme] c' :=
  .cons h (.nil c')

theorem Tokens.append (h : c.Tokens ts c₁) (h' : c₁.Tokens us c') : c.Tokens (ts ++ us) c' := by
  induction h with
  | nil => exact h'
  | cons first _ ih => exact .cons first (ih h')

theorem Tokens.of_cons (h : c.Tokens (l :: ts) c') :
    ∃ t c₁, c.next = (.ok t, c₁) ∧ t.lexeme = l ∧ c₁.Tokens ts c' := by
  cases h with
  | cons first rest => exact ⟨_, _, first, rfl, rest⟩

theorem Tokens.of_append (h : c.Tokens (ts ++ us) c') :
    ∃ c₁, c.Tokens ts c₁ ∧ c₁.Tokens us c' := by
  induction ts generalizing c with
  | nil => exact ⟨c, .nil c, h⟩
  | cons l ts ih =>
    obtain ⟨t, c₁, hnext, rfl, hrest⟩ := Tokens.of_cons h
    obtain ⟨c₂, hts, hus⟩ := ih hrest
    exact ⟨c₂, .cons hnext hts, hus⟩

theorem Tokens.length_le (h : c.Tokens ts c') : c'.rest.length ≤ c.rest.length := by
  induction h with
  | nil => exact Nat.le_refl _
  | @cons c c₁ c' t ts first rest ih =>
    have hnext := c.next_suffix.length_le
    rw [first] at hnext
    exact Nat.le_trans ih hnext

/-- Of two runs of tokens from the same place one is the front of the other. -/
theorem Tokens.comparable (h : c.Tokens ts c') (h' : c.Tokens us d) : ts <+: us ∨ us <+: ts := by
  induction h generalizing us with
  | nil => exact .inl List.nil_prefix
  | cons first rest ih =>
    cases h' with
    | nil => exact .inr List.nil_prefix
    | cons first' rest' =>
      rw [first] at first'
      cases first'
      rcases ih rest' with h | h
      · exact .inl (List.cons_prefix_cons.mpr ⟨rfl, h⟩)
      · exact .inr (List.cons_prefix_cons.mpr ⟨rfl, h⟩)

theorem Tokens.end_unique (h : c.Tokens ts c') (h' : c.Tokens ts d) : c' = d := by
  induction h with
  | nil =>
    cases h'
    rfl
  | cons first rest ih =>
    obtain ⟨t, c₁, hnext, -, hrest⟩ := Tokens.of_cons h'
    rw [first] at hnext
    cases hnext
    exact ih hrest

/-- Every token but the end of the input takes a byte. -/
theorem length_lt_of_next {t : Token Spelling} (h : c.next = (.ok t, c'))
    (ht : t.lexeme ≠ .endOfInput) : c'.rest.length < c.rest.length := by
  rcases c.next_length_lt with ⟨p, hp⟩ | hlt
  · rw [h] at hp
    cases hp
    exact absurd rfl ht
  · rwa [h] at hlt

/-- At the end of the input nothing goes on. -/
theorem stops_of_rest_nil (h : c.rest.length = 0) (ops : List BinaryOp) : c.Stops ops := by
  rcases c.next_length_lt with ⟨p, hp⟩ | hlt
  · exact ⟨_, c.next.2, Prod.ext hp rfl, nofun⟩
  · omega

theorem stops_sum_iff : c.Stops Rank.sum.pending ↔ c.EndsExpression := by
  simp only [Stops, EndsExpression, Rank.mem_pending, true_imp_iff]

/-- At most one expression stands at a cursor. -/
theorem Sentence.unique (h : c.Sentence ts p c') (h' : c.Sentence us q d) :
    ts = us ∧ p = q ∧ c' = d := by
  obtain ⟨t, _, hnext, ht⟩ := h.stops
  obtain ⟨t', _, hnext', ht'⟩ := h'.stops
  have hstops : ∀ {u : Token Spelling} (more : List (Lexeme Spelling)),
      (∀ op : BinaryOp, u.lexeme ≠ .operator op.sign) → Part.expression.Stops (u.lexeme :: more) :=
    fun more hu op _ heq => hu op (Option.some.inj heq)
  -- the token behind an expression is not part of it, whichever of the two is looked at
  have hsame : ts = us ∧ p = q := by
    have hts := h.tokens.append (.one hnext)
    have hus := h'.tokens.append (.one hnext')
    rcases hts.comparable hus with ⟨more, hmore⟩ | ⟨more, hmore⟩
    · rw [List.append_assoc] at hmore
      exact h.derives.unique h'.derives hmore (hstops more ht) (hstops [] ht')
    · rw [List.append_assoc] at hmore
      exact h.derives.unique h'.derives hmore.symm (hstops [] ht) (hstops more ht')
  obtain ⟨rfl, rfl⟩ := hsame
  exact ⟨rfl, rfl, h.tokens.end_unique h'.tokens⟩

end Cursor

/-! ### Where a part ends -/

/-- Operands are read up to a token that cannot go on with them; a factor is read to its own end. -/
def Part.Ends : Part → Cursor → Prop
  | operands rank, c | more rank _, c => c.Stops rank.pending
  | unary, _ | factor, _ => True

namespace Rank

variable {rank : Rank} {c c' : Cursor} {ts : List (Lexeme Spelling)} {p q : Phrase}

/-- The operators of a rank that the parser looks for. -/
def kind : Rank → Operator → Option BinaryOp
  | sum => BinaryOp.ofSumSign?
  | product => BinaryOp.ofTermSign?

theorem kind_eq_some {sign : Operator} {op : BinaryOp} :
    rank.kind sign = some op ↔ op ∈ rank.operators ∧ sign = op.sign := by
  cases rank <;> cases sign <;> cases op <;> decide

/-- Operands end behind an operand that no operator of their rank follows. -/
theorem stops_of_ends (h : rank.operand.Ends c) {t : Token Spelling} (hnext : c.next = (.ok t, c'))
    (ht : ∀ op ∈ rank.operators, t.lexeme ≠ .operator op.sign) : c.Stops rank.pending := by
  refine ⟨t, c', hnext, fun op hop => ?_⟩
  cases rank with
  | product => exact ht op hop
  | sum =>
    obtain ⟨t', _, hnext', ht'⟩ := h
    rw [hnext] at hnext'
    cases hnext'
    exact (List.mem_append.mp hop).elim (ht op) (ht' op)

/-- An operand ends where an operator of its rank follows, or where all operands end. -/
theorem ends_operand (h : Derives (.more rank p) ts q) (htokens : c.Tokens ts c')
    (hends : c'.Stops rank.pending) : rank.operand.Ends c := by
  cases rank with
  | product => trivial
  | sum =>
    cases h with
    | stop =>
      cases htokens
      obtain ⟨t, d, hnext, ht⟩ := hends
      exact ⟨t, d, hnext, fun op hop => ht op (pending_subset .sum hop)⟩
    | more ranked _ _ =>
      obtain ⟨t, c₁, hnext, ht, -⟩ := htokens.of_cons
      refine ⟨t, c₁, hnext, fun op hop heq => ?_⟩
      rw [ht] at heq
      cases BinaryOp.sign_inj (Lexeme.operator.inj heq)
      exact not_mem_pending ranked hop

end Rank

theorem UnaryOp.ofSign?_eq_some {sign : Operator} {op : UnaryOp} :
    ofSign? sign = some op ↔ sign ∈ op.signs := by
  cases sign <;> cases op <;> decide

/-! ### Looking ahead -/

theorem Lexeme.operator?_bind (σ : Scopes) (l : Lexeme Spelling) :
    (l.bind σ).1.operator? = l.operator? := by
  cases l <;> rfl

theorem Lexeme.eq_rightParen_of_bind {σ : Scopes} {l : Lexeme Spelling}
    (h : (l.bind σ).1 = .rightParen) : l = .rightParen := by
  cases l with
  | rightParen => rfl
  | _ => cases h

theorem Reading.SameValues.resolve {r r' : Reading} (h : r.SameValues r') (name : String) :
    r'.scopes.resolve name = r.scopes.resolve name :=
  Scopes.resolve_congr h.path fun scope => h.definitionAt scope name

theorem Reading.sameValues_bind (r : Reading) (l : Lexeme Spelling) (d : Cursor) :
    r.SameValues { r with cursor := d, scopes := (l.bind r.scopes).2 } :=
  ⟨Lexeme.bind_path _ _, Lexeme.bind_definitionAt _ _⟩

namespace Expr

section

variable {α β : Type} {kind : Operator → Option α} {branch : Option α → Parser β} {r : Reading}
  {t : Token Spelling} {d : Cursor}

theorem peekOperator_of_next (kind : Operator → Option α) (h : r.cursor.next = (.ok t, d)) :
    peekOperator kind r = .ok (t.lexeme.operator?.bind kind)
      { r with scopes := (t.lexeme.bind r.scopes).2 } := by
  have hpeek : Parser.peek r = .ok ⟨(t.lexeme.bind r.scopes).1, t.position⟩
      { r with scopes := (t.lexeme.bind r.scopes).2 } := by
    rw [Parser.peek, Parser.next, h]
  show EStateM.bind Parser.peek _ r = _
  rw [EStateM.bind, hpeek, ← Lexeme.operator?_bind r.scopes]
  rfl

/-- Looking ahead needs a token. -/
theorem exists_next_of_ahead {x : β} {r' : Reading}
    (h : (peekOperator kind >>= branch) r = .ok x r') : ∃ t d, r.cursor.next = (.ok t, d) := by
  obtain ⟨_, _, hpeek, -⟩ := bind_eq_ok h
  obtain ⟨_, _, hpeek, -⟩ := bind_eq_ok hpeek
  obtain ⟨t, d, hnext, -⟩ := peek_eq_ok hpeek
  exact ⟨t, d, hnext⟩

/-- An operator of the kind that stands ahead is read. -/
theorem ahead_operator {f : Parser β} {sign : Operator} {op : α} {position : Position}
    (hnext : r.cursor.next = (.ok ⟨.operator sign, position⟩, d)) (hop : kind sign = some op)
    (hbranch : branch (some op) = Parser.next >>= fun _ => f) :
    (peekOperator kind >>= branch) r = f { r with cursor := d } := by
  have hread : Parser.next r = .ok ⟨.operator sign, position⟩ { r with cursor := d } := by
    rw [Parser.next, hnext]
    rfl
  have hpeek := peekOperator_of_next kind hnext
  simp only [Lexeme.operator?, Option.bind_some, hop] at hpeek
  show EStateM.bind (peekOperator kind) branch r = _
  rw [EStateM.bind, hpeek]
  show branch (some op) r = _
  rw [hbranch]
  show EStateM.bind Parser.next _ r = _
  rw [EStateM.bind, hread]

/-- Anything else is left where it stands. -/
theorem ahead_other (hnext : r.cursor.next = (.ok t, d))
    (hop : ∀ sign, t.lexeme = .operator sign → kind sign = none) :
    (peekOperator kind >>= branch) r =
      branch none { r with scopes := (t.lexeme.bind r.scopes).2 } := by
  have hnone : t.lexeme.operator?.bind kind = none := by
    cases hl : t.lexeme with
    | operator sign => exact hop sign hl
    | _ => rfl
  show EStateM.bind (peekOperator kind) branch r = _
  rw [EStateM.bind, peekOperator_of_next kind hnext, hnone]

end

variable {c : Context} {r r₁ r' : Reading} {t : Token Spelling} {d : Cursor} {e : Expr}
  {nested operand : Parser Expr} {rank : Rank} {position : Position}

theorem unaryFactor_operator {op : UnaryOp} {sign : Operator}
    (hnext : r.cursor.next = (.ok ⟨.operator sign, position⟩, d)) (hsign : sign ∈ op.signs) :
    unaryFactor c nested r =
      (do return .unary op (← factor c nested) : Parser Expr) { r with cursor := d } :=
  ahead_operator hnext (UnaryOp.ofSign?_eq_some.mpr hsign) rfl

theorem unaryFactor_other (hnext : r.cursor.next = (.ok t, d))
    (hop : ∀ op : UnaryOp, ∀ sign ∈ op.signs, t.lexeme ≠ .operator sign) :
    unaryFactor c nested r =
      factor c nested { r with scopes := (t.lexeme.bind r.scopes).2 } := by
  refine ahead_other hnext fun sign hsign => ?_
  refine Option.eq_none_iff_forall_ne_some.mpr fun op hkind => ?_
  exact hop op sign (UnaryOp.ofSign?_eq_some.mp hkind) hsign

theorem chain_operator {op : BinaryOp} {n : Nat} {left : Expr}
    (hnext : r.cursor.next = (.ok ⟨.operator op.sign, position⟩, d)) (hop : op ∈ rank.operators) :
    chain rank.kind operand (n + 1) left r =
      (do chain rank.kind operand n (.binary op left (← operand)) : Parser Expr)
        { r with cursor := d } :=
  ahead_operator hnext (Rank.kind_eq_some.mpr ⟨hop, rfl⟩) rfl

theorem chain_other {n : Nat} {left : Expr} (hnext : r.cursor.next = (.ok t, d))
    (hop : ∀ op ∈ rank.operators, t.lexeme ≠ .operator op.sign) :
    chain rank.kind operand (n + 1) left r =
      .ok left { r with scopes := (t.lexeme.bind r.scopes).2 } := by
  refine ahead_other hnext fun sign hsign => ?_
  refine Option.eq_none_iff_forall_ne_some.mpr fun op hkind => ?_
  obtain ⟨hranked, rfl⟩ := Rank.kind_eq_some.mp hkind
  exact hop op hranked hsign

/-! ### What is read is a part of an expression -/

/-- A part of an expression stands between two readings, and the names that were found when it was
read make it the expression. -/
def Covers (c : Context) (part : Part) (r : Reading) (e : Expr) (r' : Reading) : Prop :=
  ∃ ts p, r.cursor.Tokens ts r'.cursor ∧ Derives part ts p ∧ p.Defined r.scopes ∧
    e = p.expr r.scopes c.address ∧ part.Ends r'.cursor

theorem Covers.of_sameValues {part : Part} (h : Covers c part r₁ e r') (hsame : r.SameValues r₁)
    (hcursor : r₁.cursor = r.cursor) : Covers c part r e r' := by
  obtain ⟨ts, p, htokens, hderives, hdefined, he, hends⟩ := h
  rw [Phrase.expr_congr c.address p hsame.resolve] at he
  rw [Phrase.defined_congr p hsame.resolve] at hdefined
  exact ⟨ts, p, hcursor ▸ htokens, hderives, hdefined, he, hends⟩

theorem factor_sound (hpass : c.pass = .second)
    (hnested : ∀ {r e r'}, nested r = .ok e r' → Covers c .expression r e r')
    (h : factor c nested r = .ok e r') : Covers c .factor r e r' := by
  have hfactor := h
  obtain ⟨t, r₁, hnext, h⟩ := bind_eq_ok h
  obtain ⟨⟨l, position⟩, hcursor, rfl, hr₁⟩ := next_eq_ok hnext
  have hone := Cursor.Tokens.one hcursor
  cases l with
  | constant v =>
    cases h
    exact ⟨_, .constant v, hone, .constant v, nofun, rfl, trivial⟩
  | operator op =>
    cases op with
    | star =>
      cases h
      exact ⟨_, .here, hone, .here, nofun, rfl, trivial⟩
    | _ => cases h
  | name w =>
    obtain ⟨d, hd⟩ := resolve_of_factor hpass hcursor hfactor
    rw [factor_name hpass hcursor hd] at hfactor
    cases hfactor
    refine ⟨_, .name w, hone, .name w, fun name hname => ?_, ?_, trivial⟩
    · cases List.mem_singleton.mp hname
      exact ⟨d, hd⟩
    · simp [Phrase.expr, Scopes.numberOf, Scopes.isLabel, hd]
  | leftParen =>
    -- an expression, and then the closing parenthesis
    obtain ⟨e', r₂, hinside, h⟩ := bind_eq_ok h
    obtain ⟨u, r₃, hclose, h⟩ := bind_eq_ok h
    obtain ⟨close, hcursor', rfl, -⟩ := next_eq_ok hclose
    split at h
    · next hparen =>
      cases h
      have hlexeme := Lexeme.eq_rightParen_of_bind hparen
      obtain ⟨ts, p, htokens, hderives, hdefined, he, -⟩ := hnested hinside
      have hsame : r.SameValues r₁ := by
        rw [hr₁]
        exact r.sameValues_bind _ _
      rw [Phrase.expr_congr c.address p hsame.resolve] at he
      rw [Phrase.defined_congr p hsame.resolve] at hdefined
      refine ⟨_, p, .cons hcursor (htokens.append (.one hcursor')), ?_, hdefined, he, trivial⟩
      rw [hlexeme]
      exact .parens hderives
    · cases h
  | _ => cases h

theorem unaryFactor_sound (hpass : c.pass = .second)
    (hnested : ∀ {r e r'}, nested r = .ok e r' → Covers c .expression r e r')
    (h : unaryFactor c nested r = .ok e r') : Covers c .unary r e r' := by
  obtain ⟨t, d, hnext⟩ := exists_next_of_ahead h
  by_cases hop : ∃ op : UnaryOp, ∃ sign ∈ op.signs, t.lexeme = .operator sign
  · obtain ⟨op, sign, hsign, hl⟩ := hop
    obtain ⟨l, position⟩ := t
    cases hl
    rw [unaryFactor_operator hnext hsign] at h
    obtain ⟨e', r₁, hfactor, h⟩ := bind_eq_ok h
    cases h
    obtain ⟨ts, p, htokens, hderives, hdefined, rfl, -⟩ := factor_sound hpass hnested hfactor
    exact ⟨_, .unary op p, .cons hnext htokens, .unary hsign hderives, hdefined, rfl, trivial⟩
  · rw [unaryFactor_other hnext fun op sign hsign hl => hop ⟨op, sign, hsign, hl⟩] at h
    obtain ⟨ts, p, htokens, hderives, hdefined, he, -⟩ :=
      (factor_sound hpass hnested h).of_sameValues (r.sameValues_bind t.lexeme r.cursor) rfl
    exact ⟨ts, p, htokens, .factor hderives, hdefined, he, trivial⟩

/-- The loop over the operators of a rank reads what follows an operand. -/
theorem chain_sound (hg : Grammatical operand)
    (hoperand : ∀ {r e r'}, operand r = .ok e r' → Covers c rank.operand r e r') {n : Nat}
    {p : Phrase} (hn : r.cursor.rest.length ≤ n) (hends : rank.operand.Ends r.cursor)
    (hdefined : p.Defined r.scopes)
    (h : chain rank.kind operand n (p.expr r.scopes c.address) r = .ok e r') :
    Covers c (.more rank p) r e r' := by
  induction n generalizing r p with
  | zero =>
    -- the loop has not stopped early: no bytes are left
    cases h
    exact ⟨[], p, .nil _, .stop, hdefined, rfl, Cursor.stops_of_rest_nil (by omega) _⟩
  | succ n ih =>
    obtain ⟨t, d, hnext⟩ := exists_next_of_ahead h
    by_cases hop : ∃ op ∈ rank.operators, t.lexeme = .operator op.sign
    · obtain ⟨op, hranked, hl⟩ := hop
      obtain ⟨l, position⟩ := t
      cases hl
      rw [chain_operator hnext hranked] at h
      obtain ⟨right, r₁, hright, h⟩ := bind_eq_ok h
      obtain ⟨ts, q, htokens, hderives, hq, rfl, hends₁⟩ := hoperand hright
      have hread := (hg.follows Reading.kept_sameValues).of_ok hright
      have hsame : r.SameValues r₁ := ⟨hread.path, hread.definitionAt⟩
      have hbinary : (Phrase.binary op p q).expr r₁.scopes c.address =
          .binary op (p.expr r.scopes c.address) (q.expr r.scopes c.address) :=
        Phrase.expr_congr c.address _ hsame.resolve
      have hlength := Cursor.length_lt_of_next hnext nofun
      have hlength₁ := htokens.length_le
      have hdefined₁ : (Phrase.binary op p q).Defined r₁.scopes :=
        (Phrase.defined_congr _ hsame.resolve).mpr (Phrase.defined_binary.mpr ⟨hdefined, hq⟩)
      -- the operand that was read is the left one from here on
      obtain ⟨us, s, hus, hmore, hs, he, hends'⟩ :=
        ih (r := r₁) (p := .binary op p q) (by simp only at hlength₁; omega) hends₁ hdefined₁
          (hbinary ▸ h)
      rw [Phrase.expr_congr c.address s hsame.resolve] at he
      rw [Phrase.defined_congr s hsame.resolve] at hs
      exact ⟨_, s, .cons hnext (htokens.append hus), .more hranked hderives hmore, hs, he, hends'⟩
    · have hother : ∀ op ∈ rank.operators, t.lexeme ≠ .operator op.sign :=
        fun op hranked hl => hop ⟨op, hranked, hl⟩
      rw [chain_other hnext hother] at h
      cases h
      exact ⟨[], p, .nil _, .stop, hdefined, rfl, Rank.stops_of_ends hends hnext hother⟩

theorem operands_sound (rank : Rank) (hg : Grammatical operand)
    (hoperand : ∀ {r e r'}, operand r = .ok e r' → Covers c rank.operand r e r')
    (h : operands rank.kind operand r = .ok e r') : Covers c (.operands rank) r e r' := by
  obtain ⟨left, r₁, hleft, h⟩ := bind_eq_ok h
  obtain ⟨n, r₂, hn, h⟩ := bind_eq_ok h
  cases hn
  obtain ⟨ts, p, htokens, hderives, hdefined, rfl, hends⟩ := hoperand hleft
  have hsame : r.SameValues r₁ := (hg.follows Reading.kept_sameValues).of_ok hleft
  rw [← Phrase.expr_congr c.address p hsame.resolve] at h
  rw [← Phrase.defined_congr p hsame.resolve] at hdefined
  obtain ⟨us, q, hus, hmore, hq, he, hends'⟩ :=
    chain_sound hg hoperand (Nat.le_refl _) hends hdefined h
  rw [Phrase.expr_congr c.address q hsame.resolve] at he
  rw [Phrase.defined_congr q hsame.resolve] at hq
  exact ⟨_, q, htokens.append hus, .operands hderives hmore, hq, he, hends'⟩

/-- What is read as an expression is one. -/
theorem expression_sound (hpass : c.pass = .second) {n : Nat}
    (h : expression c n r = .ok e r') : Covers c .expression r e r' := by
  induction n generalizing r e r' with
  | zero => cases h
  | succ n ih =>
    have hg : Grammatical (unaryFactor c (expression c n)) :=
      unaryFactor_grammatical expression_grammatical
    refine operands_sound .sum (operands_grammatical hg) ?_ h
    intro r e r' h
    exact operands_sound .product hg (unaryFactor_sound hpass ih) h

/-! ### Every part of an expression is read -/

/-- The parser of the operands of a rank, with `n` parentheses around each other at most. -/
def operandParser (c : Context) (n : Nat) : Rank → Parser Expr
  | .sum => term c (expression c n)
  | .product => unaryFactor c (expression c n)

/-- The parser of a part of an expression.  What follows an operand is read in `m` turns at most. -/
def partParser (c : Context) (n m : Nat) (σ : Scopes) : Part → Parser Expr
  | .operands rank => operands rank.kind (operandParser c n rank)
  | .more rank left => chain rank.kind (operandParser c n rank) m (left.expr σ c.address)
  | .unary => unaryFactor c (expression c n)
  | .factor => factor c (expression c n)

theorem partParser_operand (c : Context) (n m : Nat) (σ : Scopes) (rank : Rank) :
    partParser c n m σ rank.operand = operandParser c n rank := by
  cases rank <;> rfl

theorem operandParser_grammatical {n : Nat} : Grammatical (operandParser c n rank) := by
  cases rank with
  | sum => exact operands_grammatical (unaryFactor_grammatical expression_grammatical)
  | product => exact unaryFactor_grammatical expression_grammatical

/-- A part of an expression that stands at the cursor and ends there is read. -/
theorem reads_of_derives (hpass : c.pass = .second) {part : Part} {ts : List (Lexeme Spelling)}
    {p : Phrase} (h : Derives part ts p) {n m : Nat} (hn : r.cursor.rest.length ≤ n)
    (hm : r.cursor.rest.length ≤ m) (htokens : r.cursor.Tokens ts d) (hends : part.Ends d)
    (hdefined : p.Defined r.scopes) :
    ∃ r', partParser c n m r.scopes part r = .ok (p.expr r.scopes c.address) r' ∧
      r'.cursor = d := by
  -- `n` counts down with the parentheses around each other and `m` with the operators in a row;
  -- the bytes that are left are enough for both, since each of these takes a byte
  induction h generalizing r d n m with
  | constant number =>
    obtain ⟨⟨l, position⟩, _, hnext, rfl, hrest⟩ := htokens.of_cons
    cases hrest
    exact ⟨_, bind_of_ok (next_of_cursor hnext), rfl⟩
  | here =>
    obtain ⟨⟨l, position⟩, _, hnext, rfl, hrest⟩ := htokens.of_cons
    cases hrest
    exact ⟨_, bind_of_ok (next_of_cursor hnext), rfl⟩
  | name written =>
    obtain ⟨⟨l, position⟩, _, hnext, rfl, hrest⟩ := htokens.of_cons
    cases hrest
    obtain ⟨definition, hd⟩ := hdefined written.text (List.mem_singleton.mpr rfl)
    have he : (Phrase.name written).expr r.scopes c.address =
        .value definition.value (definition.kind = .label) := by
      simp [Phrase.expr, Scopes.numberOf, Scopes.isLabel, hd]
    rw [he]
    exact ⟨_, factor_name hpass hnext hd, rfl⟩
  | parens inside ih =>
    obtain ⟨⟨l, position⟩, c₁, hnext, rfl, hrest⟩ := htokens.of_cons
    obtain ⟨c₂, hinside, hclose⟩ := hrest.of_append
    obtain ⟨⟨l, position'⟩, _, hnext', rfl, hrest⟩ := hclose.of_cons
    cases hrest
    have hlength := Cursor.length_lt_of_next hnext (by simp)
    obtain ⟨n, rfl⟩ : ∃ k, n = k + 1 := ⟨n - 1, by omega⟩
    -- the closing parenthesis ends the expression inside
    obtain ⟨r₂, hr₂, rfl⟩ := ih (r := { r with cursor := c₁ }) (n := n) (m := m)
      (by simp only; omega) (by simp only; omega) hinside ⟨_, _, hnext', by simp⟩ hdefined
    refine ⟨{ r₂ with cursor := d }, (bind_of_ok (next_of_cursor hnext)).trans ?_, rfl⟩
    refine (bind_of_ok hr₂).trans ?_
    exact bind_of_ok (next_of_cursor hnext')
  | unary written operand ih =>
    obtain ⟨⟨l, position⟩, c₁, hnext, rfl, hrest⟩ := htokens.of_cons
    have hlength := Cursor.length_lt_of_next hnext (by simp)
    obtain ⟨r₂, hr₂, hd⟩ := ih (r := { r with cursor := c₁ }) (n := n) (m := m)
      (by simp only; omega) (by simp only; omega) hrest trivial hdefined
    exact ⟨r₂, (unaryFactor_operator hnext written).trans (bind_of_ok hr₂), hd⟩
  | factor only ih =>
    obtain ⟨l, more, rfl⟩ := only.exists_cons_of_factor
    obtain ⟨t, c₁, hnext, ht, -⟩ := htokens.of_cons
    -- looking ahead has noted the name in the scopes, but given it no value
    have hsame := r.sameValues_bind t.lexeme r.cursor
    obtain ⟨r₂, hr₂, hd⟩ := ih (r := { r with scopes := (t.lexeme.bind r.scopes).2 }) hn hm htokens
      trivial ((Phrase.defined_congr _ hsame.resolve).mpr hdefined)
    refine ⟨r₂, (unaryFactor_other hnext fun op sign hsign hl => ?_).trans ?_, hd⟩
    · exact only.head_of_factor hsign [] (by rw [← hl, ht]; rfl)
    · rw [← Phrase.expr_congr c.address _ hsame.resolve]
      exact hr₂
  | @operands rank ts us p q first rest ihfirst ihrest =>
    obtain ⟨c₁, hfirst, hrest⟩ := htokens.of_append
    have hlength := hfirst.length_le
    have hp : p.Defined r.scopes := rest.defined_of_more hdefined
    obtain ⟨r₁, hr₁, rfl⟩ := ihfirst hn hm hfirst (Rank.ends_operand rest hrest hends) hp
    rw [partParser_operand] at hr₁
    have hsame := (operandParser_grammatical.follows Reading.kept_sameValues).of_ok hr₁
    obtain ⟨r₂, hr₂, hd⟩ := ihrest (Nat.le_trans hlength hn) (Nat.le_refl _) hrest hends
      ((Phrase.defined_congr q hsame.resolve).mpr hdefined)
    rw [Phrase.expr_congr c.address q hsame.resolve] at hr₂
    refine ⟨r₂, (bind_of_ok hr₁).trans ?_, hd⟩
    rw [← Phrase.expr_congr c.address p hsame.resolve]
    exact hr₂
  | @stop rank p =>
    cases htokens
    cases m with
    | zero => exact ⟨r, rfl, rfl⟩
    | succ m =>
      obtain ⟨t, c₁, hnext, ht⟩ := hends
      exact ⟨_, chain_other hnext fun op hop => ht op (Rank.operators_subset hop), rfl⟩
  | @more rank op ts us p q s ranked right rest ihright ihrest =>
    obtain ⟨⟨l, position⟩, c₁, hnext, rfl, hrest⟩ := htokens.of_cons
    obtain ⟨c₂, hright, hmore⟩ := hrest.of_append
    have hlength := Cursor.length_lt_of_next hnext (by simp)
    have hlength₂ := hright.length_le
    obtain ⟨m, rfl⟩ : ∃ k, m = k + 1 := ⟨m - 1, by omega⟩
    have hpq := Phrase.defined_binary.mp (rest.defined_of_more hdefined)
    obtain ⟨r₁, hr₁, rfl⟩ := ihright (r := { r with cursor := c₁ }) (n := n) (m := m)
      (by simp only; omega) (by simp only; omega) hright (Rank.ends_operand rest hmore hends) hpq.2
    rw [partParser_operand] at hr₁
    have hread := (operandParser_grammatical.follows Reading.kept_sameValues).of_ok hr₁
    have hsame : r.SameValues r₁ := ⟨hread.path, hread.definitionAt⟩
    obtain ⟨r₂, hr₂, hd⟩ := ihrest (r := r₁) (n := n) (m := m) (by omega) (by omega) hmore hends
      ((Phrase.defined_congr s hsame.resolve).mpr hdefined)
    rw [Phrase.expr_congr c.address s hsame.resolve] at hr₂
    refine ⟨r₂, (chain_operator hnext ranked).trans ((bind_of_ok hr₁).trans ?_), hd⟩
    rw [← hr₂, partParser, Phrase.expr_congr c.address _ hsame.resolve]
    rfl

/-! ### Whole expressions -/

theorem parse_sound (hpass : c.pass = .second) (h : Expr.parse c r = .ok e r') :
    ∃ ts p, r.cursor.Sentence ts p r'.cursor ∧ p.Defined r.scopes ∧
      e = p.expr r.scopes c.address := by
  obtain ⟨n, r₁, hn, h⟩ := bind_eq_ok h
  cases hn
  obtain ⟨ts, p, htokens, hderives, hdefined, he, hends⟩ := expression_sound hpass h
  exact ⟨ts, p, ⟨htokens, hderives, Cursor.stops_sum_iff.mp hends⟩, hdefined, he⟩

theorem parse_complete (hpass : c.pass = .second) {ts : List (Lexeme Spelling)} {p : Phrase}
    (h : r.cursor.Sentence ts p d) (hdefined : p.Defined r.scopes) :
    ∃ r', Expr.parse c r = .ok (p.expr r.scopes c.address) r' ∧ r'.cursor = d :=
  reads_of_derives hpass h.derives (Nat.le_refl _) (Nat.le_refl _) h.tokens
    (Cursor.stops_sum_iff.mpr h.stops) hdefined

/-- In the second pass the value of a sentence is what its tree evaluates to. -/
theorem value_of_sentence (hpass : c.pass = .second) {ts : List (Lexeme Spelling)} {p : Phrase}
    (h : r.cursor.Sentence ts p d) (hdefined : p.Defined r.scopes) :
    ∃ r', r'.cursor = d ∧
      Value.parse c r = lift ((p.expr r.scopes c.address).evaluate .second) r' := by
  obtain ⟨r', hparse, hd⟩ := parse_complete hpass h hdefined
  refine ⟨r', hd, (bind_of_ok hparse).trans ?_⟩
  rw [hpass]

theorem sentence_of_value (hpass : c.pass = .second) {v : Value} (h : Value.parse c r = .ok v r') :
    ∃ ts p, r.cursor.Sentence ts p r'.cursor ∧ p.Defined r.scopes ∧
      (p.expr r.scopes c.address).evaluate .second = .ok v := by
  obtain ⟨e, r₁, hparse, h⟩ := bind_eq_ok h
  obtain ⟨ts, p, hsentence, hdefined, rfl⟩ := parse_sound hpass hparse
  obtain ⟨hv, rfl⟩ := lift_eq_ok h
  exact ⟨ts, p, hsentence, hdefined, hpass ▸ hv⟩

/-- In the second pass an expression is read exactly where a sentence of the grammar stands whose
names have values.  There is at most one such sentence.  Its tokens are read and no others, its
stack program is its post-order, and where it has a value, this is the number that it denotes, and
it is absolute unless an address occurs in the sentence. -/
theorem parse_iff_sentence (hpass : c.pass = .second) (r : Reading) :
    ((∃ e r', Expr.parse c r = .ok e r') ↔
      ∃ ts p d, r.cursor.Sentence ts p d ∧ p.Defined r.scopes) ∧
    ∀ ts p d, r.cursor.Sentence ts p d →
      (∀ ts' p' d', r.cursor.Sentence ts' p' d' → ts' = ts ∧ p' = p ∧ d' = d) ∧
      (∀ e r', Expr.parse c r = .ok e r' →
        r'.cursor = d ∧ e.program.items = p.postorder r.scopes c.address) ∧
      (∀ v r', Value.parse c r = .ok v r' →
        r'.cursor = d ∧ v.number.toInt = p.denote r.scopes c.address ∧
          (v.relocation = .absolute ↔ p.mentionsAddress r.scopes = false)) := by
  refine ⟨⟨?_, ?_⟩, fun ts p d hsentence => ⟨fun ts' p' d' h => h.unique hsentence, ?_, ?_⟩⟩
  · rintro ⟨e, r', h⟩
    obtain ⟨ts, p, hsentence, hdefined, -⟩ := parse_sound hpass h
    exact ⟨ts, p, _, hsentence, hdefined⟩
  · rintro ⟨ts, p, d, hsentence, hdefined⟩
    obtain ⟨r', h, -⟩ := parse_complete hpass hsentence hdefined
    exact ⟨_, r', h⟩
  · intro e r' h
    obtain ⟨ts', p', hsentence', -, rfl⟩ := parse_sound hpass h
    obtain ⟨-, rfl, hd⟩ := hsentence'.unique hsentence
    exact ⟨hd, p'.items_expr c.address⟩
  · intro v r' h
    obtain ⟨ts', p', hsentence', -, hv⟩ := sentence_of_value hpass h
    obtain ⟨-, rfl, hd⟩ := hsentence'.unique hsentence
    have hcompute := evaluate_eq_ok.mp hv
    refine ⟨hd, ?_, ?_⟩
    · rw [← p'.denote_expr]
      exact toInt_of_compute hcompute
    · rw [eq_absolute_iff_of_compute hcompute, ← p'.mentionsAddress_expr c.address]
      simp [program]

/-- A label and the current address, with operators of both ranks. -/
theorem parse_iff_sentence_nested :
    ∃ ts p d,
      (Cursor.ofBytes (Byte.ofChars "8-v*(2-*)".toList)).Sentence ts p d ∧
      p.denote (Scopes.empty.insert "v" ⟨.label, some 7⟩) 5 = 29 ∧
      p.mentionsAddress (Scopes.empty.insert "v" ⟨.label, some 7⟩) = true ∧
      p.postorder (Scopes.empty.insert "v" ⟨.label, some 7⟩) 5 =
        [.operand 8, .operand 7, .operand 2, .operand 5, .operator .minus, .operator .star,
          .operator .minus] := by
  have hsentence := parse_iff_sentence (c := .plain .second 5) rfl
    (.start ⟨"main", none, Byte.ofChars "8-v*(2-*)".toList⟩
      (Scopes.empty.insert "v" ⟨.label, some 7⟩))
  obtain ⟨_, he⟩ : ∃ r', Expr.parse (.plain .second 5)
      (.start ⟨"main", none, Byte.ofChars "8-v*(2-*)".toList⟩
        (Scopes.empty.insert "v" ⟨.label, some 7⟩)) =
      .ok (.binary .sub (.value 8 false) (.binary .mul (.value 7 true)
        (.binary .sub (.value 2 false) (.value 5 true)))) r' :=
    Parser.exists_of_result? (by decide +kernel)
  obtain ⟨_, hv⟩ : ∃ r', Value.parse (.plain .second 5)
      (.start ⟨"main", none, Byte.ofChars "8-v*(2-*)".toList⟩
        (Scopes.empty.insert "v" ⟨.label, some 7⟩)) = .ok ⟨29, .relocatable⟩ r' :=
    Parser.exists_of_result? (by decide +kernel)
  obtain ⟨ts, p, d, hs, -⟩ := hsentence.1.mp ⟨_, _, he⟩
  obtain ⟨-, hparse, hvalue⟩ := hsentence.2 ts p d hs
  obtain ⟨-, hdenote, habsolute⟩ := hvalue _ _ hv
  refine ⟨ts, p, d, hs, hdenote.symm, ?_, (hparse _ _ he).2.symm⟩
  simpa [Reading.start] using habsolute

end Expr

end Assembler6502
