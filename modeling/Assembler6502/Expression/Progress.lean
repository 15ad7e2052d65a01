/-
What every parser keeps, and that its loops are bounded loosely enough.

Parsers are put together from `next`, `peek` and `fail`.  So a relation between
the state before and the state after that is reflexive, transitive and kept by
`next` and `peek` is kept by every parser of the grammar, whether it succeeds or
fails.

* **`Parser.Grammatical`** — how parsers are put together;
* **`Grammatical.follows`** — what such a parser keeps;
* **`Parser.SameBelow`** — two parsers that do the same on short inputs;
* **`Expr.parse_grammatical`** — the parser of expressions is put together so.

Design notes.  Every turn of a loop takes a byte, so a loop that is bounded by
the bytes that are left to read never meets its bound.
-/
import Assembler6502.Expression.Grammar

namespace Assembler6502

namespace Parser

variable {α β : Type} {R : Reading → Reading → Prop}

/-- Both parsers do the same where at most `n` bytes are left to read. -/
def SameBelow (n : Nat) (p q : Parser α) : Prop :=
  ∀ r : Reading, r.cursor.rest.length ≤ n → p r = q r

/-- Parsers that are put together from reading, looking ahead and failing.  Apart from what the
evaluation of an expression may report, they fail with errors of the source.  A loop is bounded by
the bytes that are left to read, and a larger bound makes no difference. -/
inductive Grammatical : {α : Type} → Parser α → Prop where
  | pure {α : Type} (a : α) : Grammatical (Pure.pure a)
  | fail {α : Type} {error : StatementError} (source : error.isInternal = false) :
      Grammatical (Parser.fail error : Parser α)
  | next : Grammatical Parser.next
  | peek : Grammatical Parser.peek
  | scopes : Grammatical Parser.scopes
  | evaluate (e : Expr) (pass : Pass) : Grammatical (lift (e.evaluate pass))
  | bind {α β : Type} {p : Parser α} {f : α → Parser β} (first : Grammatical p)
      (rest : ∀ a, Grammatical (f a)) : Grammatical (p >>= f)
  | bounded {α : Type} {p : Nat → Parser α} (each : ∀ n, Grammatical (p n))
      (enough : ∀ n m, n ≤ m → SameBelow n (p n) (p m)) : Grammatical (remaining >>= p)

theorem Grammatical.map {p : Parser α} {f : α → β} (h : Grammatical p) :
    Grammatical (do return f (← p)) :=
  .bind h fun _ => .pure _

/-! ### What parsers keep -/

/-- The state that a parser leaves behind, whether it succeeds or fails. -/
def after (p : Parser α) (r : Reading) : Reading :=
  match p r with
  | .ok _ s => s
  | .error _ s => s

theorem after_of_ok {p : Parser α} {r s : Reading} {x : α} (h : p r = .ok x s) : p.after r = s := by
  rw [after, h]

theorem after_of_error {p : Parser α} {r s : Reading} {d : Diagnostic} (h : p r = .error d s) :
    p.after r = s := by
  rw [after, h]

/-- A parser leads to related states only. -/
def Follows (R : Reading → Reading → Prop) (p : Parser α) : Prop :=
  ∀ r, R r (p.after r)

/-- A relation that reading and looking ahead keep. -/
structure Kept (R : Reading → Reading → Prop) : Prop where
  refl : ∀ r, R r r
  trans : ∀ {r s t}, R r s → R s t → R r t
  next : Follows R next
  peek : Follows R peek

theorem Follows.bind (hR : Kept R) {p : Parser α} {f : α → Parser β} (hp : Follows R p)
    (hf : ∀ a, Follows R (f a)) : Follows R (p >>= f) := by
  intro r
  have h1 := hp r
  change R r (after (EStateM.bind p f) r)
  unfold after EStateM.bind at *
  split at h1
  · next a s hs =>
    rw [hs]
    have h2 := hf a s
    unfold after at h2
    exact hR.trans h1 h2
  · next e s hs =>
    rw [hs]
    exact h1

/-- What follows a parser leads on from the state that it left. -/
theorem Follows.after_bind (hR : Kept R) (p : Parser α) {f : α → Parser β}
    (hf : ∀ a, Follows R (f a)) (r : Reading) : R (p.after r) ((p >>= f).after r) := by
  change R (p.after r) (after (EStateM.bind p f) r)
  unfold after EStateM.bind
  cases p r with
  | ok a s => exact hf a s
  | error e s => exact hR.refl s

theorem after_lift (result : Except StatementError α) (r : Reading) :
    (lift result).after r = r := by
  cases result <;> rfl

/-- A relation that reading and looking ahead keep is kept by every parser made of them. -/
theorem Grammatical.follows {p : Parser α} (h : Grammatical p) (hR : Kept R) : Follows R p := by
  induction h with
  | pure a => exact hR.refl
  | fail source => exact hR.refl
  | next => exact hR.next
  | peek => exact hR.peek
  | scopes => exact hR.refl
  | evaluate e pass =>
    intro r
    rw [after_lift]
    exact hR.refl r
  | bind first rest ihp ihf => exact .bind hR ihp ihf
  | bounded each enough ih => exact fun r => ih r.cursor.rest.length r

end Parser

open Assembler6502.Parser

/-! ### The source and the cursor -/

theorem Parser.next_source (r : Reading) : (Parser.next.after r).source = r.source := by
  unfold Parser.after Parser.next
  split <;> rename_i h <;> split at h <;> cases h <;> rfl

theorem Parser.next_cursor (r : Reading) : (Parser.next.after r).cursor = r.cursor.next.2 := by
  unfold Parser.after Parser.next
  split <;> rename_i h <;> split at h <;> cases h <;> simp_all

theorem Parser.after_peek (r : Reading) :
    Parser.peek.after r = { Parser.next.after r with cursor := r.cursor } := by
  unfold Parser.after Parser.peek
  cases h : Parser.next r <;> simp

/-- The source stays the same. -/
def Reading.SameSource (r s : Reading) : Prop :=
  s.source = r.source

/-- The bytes left to read are a tail of those before. -/
def Reading.Forward (r s : Reading) : Prop :=
  s.cursor.rest <:+ r.cursor.rest

theorem Reading.kept_sameSource : Kept Reading.SameSource where
  refl _ := rfl
  trans h1 h2 := h2.trans h1
  next r := Parser.next_source r
  peek r := by
    rw [Reading.SameSource, Parser.after_peek]
    exact Parser.next_source r

theorem Reading.kept_forward : Kept Reading.Forward where
  refl _ := List.suffix_refl _
  trans h1 h2 := h2.trans h1
  next r := by
    rw [Reading.Forward, Parser.next_cursor]
    exact r.cursor.next_suffix
  peek r := by
    have h : (Parser.peek.after r).cursor = r.cursor := by rw [Parser.after_peek]
    change (Parser.peek.after r).cursor.rest <:+ r.cursor.rest
    exact h ▸ List.suffix_refl r.cursor.rest

/-! ### Bounds -/

namespace Parser

variable {α β : Type} {n : Nat}

theorem Grammatical.length_le {p : Parser α} {r s : Reading} {a : α} (h : Grammatical p)
    (hp : p r = .ok a s) : s.cursor.rest.length ≤ r.cursor.rest.length := by
  have hforward := h.follows Reading.kept_forward r
  rw [Reading.Forward, after_of_ok hp] at hforward
  exact hforward.length_le

/-- A token takes a byte, unless the input has ended. -/
theorem next_spends {r s : Reading} {t : Token Name} (h : next r = .ok t s) :
    (t.lexeme = .endOfInput ∧ s.cursor.rest = []) ∨
      s.cursor.rest.length < r.cursor.rest.length := by
  have hcursor := next_cursor r
  rw [after_of_ok h] at hcursor
  rcases r.cursor.next_ended_or_length_lt with ⟨hnext, hrest⟩ | hlt
  · refine .inl ⟨?_, ?_⟩
    · rw [next, hnext] at h
      cases h
      rfl
    · rw [hcursor, hnext]
      exact hrest
  · exact .inr (by rwa [hcursor])

/-- Behind the last byte the end of the input is ahead, and looking at it changes nothing. -/
theorem peek_of_nil {r : Reading} (h : r.cursor.rest = []) :
    ∃ p, peek r = .ok ⟨.endOfInput, p⟩ r := by
  rcases r.cursor.next_ended_or_length_lt with ⟨hnext, -⟩ | hlt
  · refine ⟨r.cursor.toToken.position, ?_⟩
    rw [peek, next, hnext]
    rfl
  · rw [h] at hlt
    cases hlt

theorem SameBelow.refl (p : Parser α) : SameBelow n p p :=
  fun _ _ => rfl

theorem SameBelow.mono {m : Nat} {p q : Parser α} (h : SameBelow n p q) (hm : m ≤ n) :
    SameBelow m p q :=
  fun r hr => h r (Nat.le_trans hr hm)

theorem SameBelow.bind {p q : Parser α} {f g : α → Parser β} (hp : SameBelow n p q)
    (hf : ∀ {r a s}, r.cursor.rest.length ≤ n → p r = .ok a s → f a s = g a s) :
    SameBelow n (p >>= f) (q >>= g) := by
  intro r hr
  show EStateM.bind p f r = EStateM.bind q g r
  unfold EStateM.bind
  rw [← hp r hr]
  cases hpr : p r with
  | ok a s => exact hf hr hpr
  | error d s => rfl

/-- What follows a parser of the grammar has no more bytes to read. -/
theorem SameBelow.bind_same {p q : Parser α} {f g : α → Parser β} (hg : Grammatical p)
    (hp : SameBelow n p q) (hf : ∀ a, SameBelow n (f a) (g a)) :
    SameBelow n (p >>= f) (q >>= g) :=
  hp.bind fun hr h => hf _ _ (Nat.le_trans (hg.length_le h) hr)

/-- What follows a token has fewer bytes to read. -/
theorem SameBelow.next {f g : Token Name → Parser α} (hf : ∀ t, SameBelow n (f t) (g t)) :
    SameBelow (n + 1) (Parser.next >>= f) (Parser.next >>= g) := by
  refine (SameBelow.refl Parser.next).bind fun {r t s} hr h => hf t s ?_
  rcases next_spends h with ⟨-, hrest⟩ | hlt
  · rw [hrest]
    exact Nat.zero_le n
  · omega

theorem SameBelow.next_zero {f g : Token Name → Parser α}
    (hf : ∀ p, SameBelow 0 (f ⟨.endOfInput, p⟩) (g ⟨.endOfInput, p⟩)) :
    SameBelow 0 (Parser.next >>= f) (Parser.next >>= g) := by
  refine (SameBelow.refl Parser.next).bind fun {r t s} hr h => ?_
  obtain ⟨l, p⟩ := t
  rcases next_spends h with ⟨hl, hrest⟩ | hlt
  · cases hl
    exact hf p s (by rw [hrest]; exact Nat.le_refl 0)
  · omega

end Parser

/-! ### Expressions -/

namespace Expr

theorem ofName_grammatical {pass : Pass} {name : Name} :
    Grammatical (ofName pass name) := by
  unfold ofName
  split
  · exact .pure _
  · exact .pure _
  · refine .bind .scopes fun scopes => ?_
    split
    · exact .pure _
    · exact .fail rfl

theorem factor_grammatical {context : Context} {nested : Parser Expr}
    (hn : Grammatical nested) : Grammatical (factor context nested) := by
  refine .bind .next fun token => ?_
  cases token.lexeme with
  | constant v => exact .pure _
  | operator op =>
    cases op with
    | star => exact .pure _
    | _ => exact .fail rfl
  | name n => exact ofName_grammatical
  | leftParen =>
    refine .bind hn fun e => .bind .next fun close => ?_
    split
    · exact .pure _
    · exact .fail rfl
  | _ => exact .fail rfl

theorem peekOperator_grammatical {α : Type} {kind : Operator → Option α} :
    Grammatical (peekOperator kind) :=
  .map .peek

theorem unaryFactor_grammatical {context : Context} {nested : Parser Expr}
    (hn : Grammatical nested) : Grammatical (unaryFactor context nested) := by
  refine .bind peekOperator_grammatical fun op => ?_
  split
  · exact .bind .next fun _ => .map (factor_grammatical hn)
  · exact factor_grammatical hn

theorem chain_grammatical {kind : Operator → Option BinaryOp} {operand : Parser Expr}
    (ho : Grammatical operand) {n : Nat} {left : Expr} : Grammatical (chain kind operand n left) := by
  induction n generalizing left with
  | zero => exact .pure _
  | succ n ih =>
    refine .bind peekOperator_grammatical fun op => ?_
    split
    · exact .bind .next fun _ => .bind ho fun _ => ih
    · exact .pure _

theorem chain_enough {kind : Operator → Option BinaryOp} {operand : Parser Expr}
    (ho : Grammatical operand) (left : Expr) (n m : Nat) (h : n ≤ m) :
    SameBelow n (chain kind operand n left) (chain kind operand m left) := by
  induction n generalizing left m with
  | zero =>
    intro r hr
    cases m with
    | zero => rfl
    | succ m =>
      obtain ⟨p, hpeek⟩ := peek_of_nil (List.length_eq_zero_iff.mp (Nat.le_zero.mp hr))
      have hnone : peekOperator kind r = .ok none r := by
        show EStateM.bind Parser.peek _ r = _
        rw [EStateM.bind, hpeek]
        rfl
      show _ = EStateM.bind (peekOperator kind) _ r
      rw [EStateM.bind, hnone]
      rfl
  | succ n ih =>
    obtain ⟨m, rfl⟩ := Nat.exists_eq_add_of_le' (Nat.le_trans (Nat.le_add_left 1 n) h)
    refine .bind_same peekOperator_grammatical (.refl _) fun op => ?_
    split
    · exact .next fun _ => .bind_same ho (.refl _) fun _ => ih _ m (Nat.le_of_succ_le_succ h)
    · exact .refl _

theorem operands_grammatical {kind : Operator → Option BinaryOp}
    {operand : Parser Expr} (ho : Grammatical operand) : Grammatical (operands kind operand) :=
  .bind ho fun left => .bounded (fun _ => chain_grammatical ho) (chain_enough ho left)

theorem expression_grammatical {context : Context} {n : Nat} :
    Grammatical (expression context n) := by
  induction n with
  | zero => exact .fail rfl
  | succ n ih =>
    exact operands_grammatical (operands_grammatical (unaryFactor_grammatical ih))

theorem factor_sameBelow {context : Context} {nested nested' : Parser Expr} {n : Nat}
    (hg : Grammatical nested) (h : ∀ m < n, SameBelow m nested nested') :
    SameBelow n (factor context nested) (factor context nested') := by
  cases n with
  | zero => exact .next_zero fun p => .refl _
  | succ n =>
    refine .next fun token => ?_
    cases token.lexeme with
    | leftParen => exact .bind_same hg (h n (Nat.lt_succ_self n)) fun _ => .refl _
    | operator op => cases op <;> exact .refl _
    | _ => exact .refl _

theorem unaryFactor_sameBelow {context : Context} {nested nested' : Parser Expr} {n : Nat}
    (hg : Grammatical nested) (h : ∀ m < n, SameBelow m nested nested') :
    SameBelow n (unaryFactor context nested) (unaryFactor context nested') := by
  have hfactor : SameBelow n (factor context nested) (factor context nested') :=
    factor_sameBelow hg h
  refine .bind_same peekOperator_grammatical (.refl _) fun op => ?_
  split
  · exact .bind_same .next (.refl _) fun _ =>
      .bind_same (factor_grammatical hg) hfactor fun _ => .refl _
  · exact hfactor

theorem chain_sameBelow {kind : Operator → Option BinaryOp} {operand operand' : Parser Expr}
    {n : Nat} (hg : Grammatical operand) (h : SameBelow n operand operand') (k : Nat)
    (left : Expr) : SameBelow n (chain kind operand k left) (chain kind operand' k left) := by
  induction k generalizing left with
  | zero => exact .refl _
  | succ k ih =>
    refine .bind_same peekOperator_grammatical (.refl _) fun op => ?_
    split
    · exact .bind_same .next (.refl _) fun _ => .bind_same hg h fun _ => ih _
    · exact .refl _

theorem operands_sameBelow {kind : Operator → Option BinaryOp} {operand operand' : Parser Expr}
    {n : Nat} (hg : Grammatical operand) (h : SameBelow n operand operand') :
    SameBelow n (operands kind operand) (operands kind operand') :=
  .bind_same hg h fun left r hr => chain_sameBelow hg h r.cursor.rest.length left r hr

theorem expression_sameBelow {context : Context} {n k m : Nat}
    (h : ∀ j < n, SameBelow j (expression context k) (expression context m)) :
    SameBelow n (expression context (k + 1)) (expression context (m + 1)) := by
  have hunary : Grammatical (unaryFactor context (expression context k)) :=
    unaryFactor_grammatical expression_grammatical
  exact operands_sameBelow (operands_grammatical hunary)
    (operands_sameBelow hunary (unaryFactor_sameBelow expression_grammatical h))

/-- A parenthesis takes a byte, so more levels of nesting than bytes make no difference. -/
theorem expression_enough {context : Context} (n m : Nat) (h : n ≤ m) :
    SameBelow n (expression context (n + 1)) (expression context (m + 1)) := by
  induction n generalizing m with
  | zero => exact expression_sameBelow fun j hj => absurd hj (Nat.not_lt_zero j)
  | succ n ih =>
    obtain ⟨m, rfl⟩ := Nat.exists_eq_add_of_le' (Nat.le_trans (Nat.le_add_left 1 n) h)
    exact expression_sameBelow fun j hj =>
      (ih m (Nat.le_of_succ_le_succ h)).mono (Nat.le_of_lt_succ hj)

theorem parse_grammatical {context : Context} : Grammatical (Expr.parse context) :=
  .bounded (fun _ => expression_grammatical) expression_enough

end Expr

theorem Value.parse_grammatical {context : Context} :
    Grammatical (Value.parse context) :=
  .bind Expr.parse_grammatical fun _ => .evaluate _ _

end Assembler6502
