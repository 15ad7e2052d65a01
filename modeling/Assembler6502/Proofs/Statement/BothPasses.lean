/-
A statement whose names have values reads alike in both passes.

The first pass is lenient: it puts a placeholder where a name or a reference has
no value yet, it lets a division by zero pass, and it does not ask whether
numbers fit.  Where every name comes with its value and no anonymous label is
referred to, there is nothing to be lenient about, and what the second pass
accepts the first pass reads the same way.

* **`Scopes.carried_classify`** — the value that a name comes with does not depend
  on the names that were noted before it;
* **`Reading.Yields`** — the lexemes that are read from one place to another;
* **`Parser.Mirrors`** — what one parser accepts, another reads the same way if the
  tokens are settled; it goes from parser to parser along a computation;
* **`Statement.parseFrom_mirrors`** — the second pass and the first one are such
  parsers from the first token of a statement on;
* **`Statement.parse_first_of_second`** — all of this for statements.

Design notes.  The tokens between two cursors are the same whatever the scopes
hold, so `Mirrors` speaks of them and not of the names that were read.  They are
unique up to the end of the input, which can be read any number of times.
-/
import Assembler6502.Proofs.Expression.Recognition
import Assembler6502.Proofs.Token.Lookahead

namespace Assembler6502

open Assembler6502.Parser

/-! ### The values of names -/

namespace Scopes

/-- The value that a name comes with where it is read. -/
def carried (s : Scopes) (w : Spelling) : Option Int32 :=
  (s.classify w).1.symbol.value

theorem carried_eq_none {s : Scopes} {w : Spelling}
    (h : ∀ kind v, s.lookup w.text ≠ some ⟨kind, some v⟩) : s.carried w = none := by
  cases hw : s.carried w with
  | none => rfl
  | some v =>
    obtain ⟨kind, hlookup⟩ := lookup_of_value hw
    exact absurd hlookup (h kind v)

/-- Noting a name changes no value that a name comes with. -/
theorem carried_classify (s : Scopes) (u w : Spelling) :
    (s.classify u).2.carried w = s.carried w := by
  rcases s.classify_cases u with hsame | ⟨hlookup, hclassify⟩
  · rw [hsame]
  · rw [hclassify]
    by_cases hw : w.text = u.text
    · -- neither what was found nor the note has a value
      have hnote : (s.insert u.text ⟨if u.colon then .label else .identifier, none⟩).carried w =
          none :=
        carried_eq_none fun kind v => by
          rw [hw, lookup_insert_self]
          simp
      have hfound : s.carried w = none :=
        carried_eq_none fun kind v => by
          rw [hw]
          rcases hlookup with hnone | ⟨-, hnoted⟩
          · simp [hnone]
          · simp [hnoted]
      rw [hnote, hfound]
    · exact congrArg (·.symbol.value) (classify_congr (lookup_insert_of_ne hw))

/-- Names come with the same values. -/
def SameCarried (s t : Scopes) : Prop :=
  ∀ w, t.carried w = s.carried w

end Scopes

theorem Reading.kept_sameCarried : Kept fun r s => r.scopes.SameCarried s.scopes :=
  kept_scopes (fun _ _ => rfl) (fun h1 h2 w => (h2 w).trans (h1 w)) Scopes.carried_classify

/-! ### Tokens -/

namespace Lexeme

variable {ν : Type}

/-- Neither a name without a value nor a reference to an anonymous label. -/
def Settled (valued : ν → Prop) : Lexeme ν → Prop
  | name n => valued n
  | forward | backward => False
  | _ => True

/-- Settled if it is read against the scopes. -/
def SettledIn (scopes : Scopes) : Lexeme Spelling → Prop :=
  Settled fun w => (scopes.carried w).isSome

/-- Settled as it was read. -/
def SettledAsRead : Lexeme Name → Prop :=
  Settled fun n => n.symbol.value.isSome

theorem settledAsRead_bind {scopes : Scopes} {l : Lexeme Spelling} :
    (l.bind scopes).1.SettledAsRead ↔ l.SettledIn scopes := by
  cases l <;> exact Iff.rfl

theorem settledIn_congr {s t : Scopes} (h : s.SameCarried t) {l : Lexeme Spelling} :
    l.SettledIn t ↔ l.SettledIn s := by
  have hsame : t.carried = s.carried := funext h
  rw [SettledIn, SettledIn, hsame]

/-- The lexemes of a statement that can stand in an expression: all but the name that it begins
with, or the name of the scope that it opens. -/
def withinExpressions : List (Lexeme ν) → List (Lexeme ν)
  | lineEnd :: ts => withinExpressions ts
  | name _ :: ts => ts
  | directive .openScope :: _ => []
  | ts => ts

variable {l first : Lexeme ν} {ts us : List (Lexeme ν)}

theorem mem_of_mem_withinExpressions (h : l ∈ withinExpressions ts) : l ∈ ts := by
  fun_induction withinExpressions ts with
  | case1 ts ih => exact List.mem_cons_of_mem _ (ih h)
  | case2 n ts => exact List.mem_cons_of_mem _ h
  | case3 ts => cases h
  | case4 ts => exact h

/-- Whatever follows a first token that opens no scope can stand in an expression. -/
theorem mem_withinExpressions_cons (hline : first ≠ .lineEnd)
    (hscope : first ≠ .directive .openScope) (h : l ∈ ts) :
    l ∈ withinExpressions (first :: ts) := by
  unfold withinExpressions
  split
  · next heq => exact absurd (List.cons.inj heq).1 hline
  · next heq => exact (List.cons.inj heq).2 ▸ h
  · next heq => exact absurd (List.cons.inj heq).1 hscope
  · exact List.mem_cons_of_mem _ h

theorem mem_withinExpressions_append (h : l ∈ withinExpressions ts) :
    l ∈ withinExpressions (ts ++ us) := by
  induction ts with
  | nil => cases h
  | cons first ts ih =>
    cases first with
    | lineEnd => exact ih h
    | name n => exact List.mem_append_left us h
    | directive d =>
      cases d with
      | openScope => cases h
      | _ => exact List.mem_append_left us h
    | _ => exact List.mem_append_left us h

theorem mem_or_of_mem_withinExpressions_append (h : l ∈ withinExpressions (ts ++ us)) :
    l ∈ withinExpressions ts ∨ l ∈ us := by
  induction ts with
  | nil => exact .inr (mem_of_mem_withinExpressions h)
  | cons first ts ih =>
    cases first with
    | lineEnd => exact ih h
    | name n => exact List.mem_append.mp h
    | directive d =>
      cases d with
      | openScope => cases h
      | _ => exact List.mem_append.mp h
    | _ => exact List.mem_append.mp h

end Lexeme

namespace Cursor

variable {c c' : Cursor} {ts us : List (Lexeme Spelling)}

/-- Tokens that take no byte are ends of the input. -/
theorem Tokens.eq_endOfInput (h : c.Tokens ts c') (hlength : c.rest.length ≤ c'.rest.length) :
    ∀ l ∈ ts, l = .endOfInput := by
  induction h with
  | nil => exact fun l hl => absurd hl List.not_mem_nil
  | @cons c c₁ c' t ts first rest ih =>
    have hrest := rest.length_le
    have hnext := (Tokens.one first).length_le
    have ht : t.lexeme = .endOfInput := by
      by_contra hne
      have hlt := length_lt_of_next first hne
      omega
    intro l hl
    rcases List.mem_cons.mp hl with rfl | hl
    · exact ht
    · exact ih (by omega) l hl

/-- The tokens between two cursors are the same, up to ends of the input. -/
theorem Tokens.withinExpressions_unique (h : c.Tokens ts c') (h' : c.Tokens us c')
    {l : Lexeme Spelling} (hl : l ∈ Lexeme.withinExpressions ts) :
    l ∈ Lexeme.withinExpressions us ∨ l = .endOfInput := by
  rcases h.comparable h' with ⟨more, rfl⟩ | ⟨more, rfl⟩
  · exact .inl (Lexeme.mem_withinExpressions_append hl)
  · -- what is read beyond the second run leads from its end to the same place
    obtain ⟨c₁, hus, hmore⟩ := h.of_append
    cases hus.end_unique h'
    rcases Lexeme.mem_or_of_mem_withinExpressions_append hl with hl | hl
    · exact .inl hl
    · exact .inr (hmore.eq_endOfInput (Nat.le_refl _) l hl)

end Cursor

/-- The lexemes that are read one after the other between two readings, the names with what they
are known as where they are read. -/
inductive Reading.Yields : Reading → List (Lexeme Name) → Reading → Prop where
  | nil (r : Reading) : Yields r [] r
  | cons {r r₁ r' : Reading} {t : Token Name} {ts : List (Lexeme Name)} (first : next r = .ok t r₁)
      (rest : Yields r₁ ts r') : Yields r (t.lexeme :: ts) r'

/-- Reads `n` tokens, as far as they scan. -/
def Reading.advance : Nat → Reading → List (Lexeme Name) × Reading
  | 0, r => ([], r)
  | n + 1, r =>
    match next r with
    | .ok t s => (t.lexeme :: (s.advance n).1, (s.advance n).2)
    | .error _ _ => ([], r)

theorem Reading.yields_advance (n : Nat) (r : Reading) : r.Yields (r.advance n).1 (r.advance n).2 := by
  induction n generalizing r with
  | zero => exact .nil r
  | succ n ih =>
    unfold advance
    split
    · next t s hnext => exact .cons hnext (ih s)
    · exact .nil r

/-- Lexemes that are settled as they are read stand at the cursor as lexemes that are settled. -/
theorem Reading.Yields.tokens {r s : Reading} {ls : List (Lexeme Name)} (h : r.Yields ls s) :
    ∃ ts, r.cursor.Tokens ts s.cursor ∧
      ((∀ l ∈ ls, l.SettledAsRead) → ∀ l ∈ ts, l.SettledIn r.scopes) ∧
      ((∀ l ∈ Lexeme.withinExpressions ls, l.SettledAsRead) →
        ∀ l ∈ Lexeme.withinExpressions ts, l.SettledIn r.scopes) := by
  induction h with
  | nil r => exact ⟨[], .nil _, fun _ l hl => absurd hl List.not_mem_nil,
      fun _ l hl => absurd hl List.not_mem_nil⟩
  | @cons r r₁ r' t ls first rest ih =>
    obtain ⟨ts, htokens, hall, hwithin⟩ := ih
    have hsame : r.scopes.SameCarried r₁.scopes := kept_sameCarried.next.of_ok first
    simp only [Lexeme.settledIn_congr hsame] at hall hwithin
    obtain ⟨token, hnext, rfl, -⟩ := next_eq_ok first
    have hcons : (∀ l ∈ (token.lexeme.bind r.scopes).1 :: ls, l.SettledAsRead) →
        ∀ l ∈ token.lexeme :: ts, l.SettledIn r.scopes := by
      intro h
      rw [List.forall_mem_cons] at h ⊢
      exact ⟨Lexeme.settledAsRead_bind.mp h.1, hall h.2⟩
    refine ⟨token.lexeme :: ts, .cons hnext htokens, hcons, ?_⟩
    -- binding a name keeps the kind of a lexeme, so the same ones are left out on both sides
    cases hl : token.lexeme with
    | lineEnd => exact hwithin
    | name w => exact hall
    | directive d =>
      cases d with
      | openScope => exact fun _ l hl => absurd hl List.not_mem_nil
      | _ => rwa [hl] at hcons
    | _ => rwa [hl] at hcons

/-! ### Parsers -/

namespace Parser

variable {α β : Type} {p q : Parser α} {f g : α → Parser β}

/-- What the first parser accepts, the second one reads the same way if the tokens that are read are
settled. -/
def Mirrors (p q : Parser α) : Prop :=
  ∀ ⦃r a r'⦄, p r = .ok a r' → r.scopes.SameCarried r'.scopes ∧
    ∃ ts, r.cursor.Tokens ts r'.cursor ∧
      ((∀ l ∈ ts, l.SettledIn r.scopes) → q r = .ok a r')

theorem Grammatical.exists_tokens (h : Grammatical p) {r r' : Reading} {a : α}
    (hp : p r = .ok a r') : ∃ ts, r.cursor.Tokens ts r'.cursor := by
  induction h generalizing r r' with
  | pure b =>
    cases hp
    exact ⟨[], .nil _⟩
  | fail source => cases hp
  | next =>
    obtain ⟨token, hnext, -, -⟩ := next_eq_ok hp
    exact ⟨_, .one hnext⟩
  | peek =>
    obtain ⟨_, _, -, -, rfl⟩ := peek_eq_ok hp
    exact ⟨[], .nil _⟩
  | scopes =>
    cases hp
    exact ⟨[], .nil _⟩
  | evaluate e pass =>
    obtain ⟨-, rfl⟩ := lift_eq_ok hp
    exact ⟨[], .nil _⟩
  | bind first rest ihfirst ihrest =>
    obtain ⟨b, s, hfirst, hrest⟩ := bind_eq_ok hp
    obtain ⟨ts, hts⟩ := ihfirst hfirst
    obtain ⟨us, hus⟩ := ihrest b hrest
    exact ⟨ts ++ us, hts.append hus⟩
  | bounded each enough ih => exact ih _ hp

namespace Mirrors

theorem refl (h : Grammatical p) : Mirrors p p := by
  intro r a r' hp
  obtain ⟨ts, hts⟩ := h.exists_tokens hp
  exact ⟨(h.follows Reading.kept_sameCarried).of_ok hp, ts, hts, fun _ => hp⟩

theorem pure (a : α) : Mirrors (Pure.pure a : Parser α) (Pure.pure a) :=
  refl (.pure a)

theorem fail {error : StatementError} : Mirrors (Parser.fail error : Parser α) q := by
  intro r a r' hp
  cases hp

theorem bind (h : Mirrors p q) (h' : ∀ a, Mirrors (f a) (g a)) : Mirrors (p >>= f) (q >>= g) := by
  intro r b r' hp
  obtain ⟨a, s, hfirst, hrest⟩ := bind_eq_ok hp
  obtain ⟨hsame, ts, hts, hq⟩ := h hfirst
  obtain ⟨hsame', us, hus, hg⟩ := h' a hrest
  refine ⟨fun w => (hsame' w).trans (hsame w), ts ++ us, hts.append hus, fun hsettled => ?_⟩
  rw [List.forall_mem_append] at hsettled
  rw [bind_of_ok (hq hsettled.1)]
  exact hg fun l hl => (Lexeme.settledIn_congr hsame).mpr (hsettled.2 l hl)

/-- What follows a token may take it to be settled. -/
theorem next {f g : Token Name → Parser β} (h : ∀ t, t.lexeme.SettledAsRead → Mirrors (f t) (g t))
    (hopen : ∀ t, ¬ t.lexeme.SettledAsRead → Grammatical (f t)) :
    Mirrors (Parser.next >>= f) (Parser.next >>= g) := by
  intro r b r' hp
  obtain ⟨t, s, hnext, hrest⟩ := bind_eq_ok hp
  -- a token that is not settled leaves nothing to be shown but that tokens are read
  obtain ⟨hsame, us, hus, hg⟩ : s.scopes.SameCarried r'.scopes ∧
      ∃ us, s.cursor.Tokens us r'.cursor ∧ (t.lexeme.SettledAsRead →
        (∀ l ∈ us, l.SettledIn s.scopes) → g t s = .ok b r') := by
    by_cases ht : t.lexeme.SettledAsRead
    · obtain ⟨hsame, us, hus, hg⟩ := h t ht hrest
      exact ⟨hsame, us, hus, fun _ => hg⟩
    · obtain ⟨hsame, us, hus, -⟩ := refl (hopen t ht) hrest
      exact ⟨hsame, us, hus, fun hsettled => absurd hsettled ht⟩
  have hfirst : r.scopes.SameCarried s.scopes := Reading.kept_sameCarried.next.of_ok hnext
  obtain ⟨token, hcursor, ht, -⟩ := next_eq_ok hnext
  refine ⟨fun w => (hsame w).trans (hfirst w), token.lexeme :: us, .cons hcursor hus,
    fun hsettled => ?_⟩
  rw [List.forall_mem_cons] at hsettled
  rw [bind_of_ok hnext]
  refine hg ?_ fun l hl => (Lexeme.settledIn_congr hfirst).mpr (hsettled.2 l hl)
  rw [ht]
  exact Lexeme.settledAsRead_bind.mpr hsettled.1

/-- A loop has the same bound on both sides. -/
theorem bounded {p q : Nat → Parser α} (h : ∀ n, Mirrors (p n) (q n)) :
    Mirrors (remaining >>= p) (remaining >>= q) :=
  fun r _ _ hp => h r.cursor.rest.length hp

end Mirrors

end Parser

/-! ### Expressions -/

/-- The context in a pass. -/
def Context.during (c : Context) (pass : Pass) : Context :=
  { c with pass }

namespace Expr

variable {c : Context} {p q : Parser Expr}

theorem factor_mirrors (h : Mirrors p q) :
    Mirrors (factor (c.during .second) p) (factor (c.during .first) q) := by
  refine .next (fun t ht => ?_) fun t ht => ?_
  · obtain ⟨l, position⟩ := t
    cases l with
    | constant v => exact .pure _
    | operator op =>
      cases op with
      | star => exact .pure _
      | _ => exact .fail
    | name n =>
      obtain ⟨v, hv⟩ := Option.isSome_iff_exists.mp ht
      have hpure : ∀ pass, ofName pass n = pure (.value v (n.symbol.kind = .label)) :=
        fun _ => funext fun _ => ofName_of_value hv
      show Mirrors (ofName .second n) (ofName .first n)
      rw [hpure, hpure]
      exact .pure _
    | leftParen =>
      refine .bind h fun e => .bind (.refl .next) fun close => ?_
      split
      · exact .pure _
      · exact .fail
    | _ => exact .fail
  · obtain ⟨l, position⟩ := t
    cases l with
    | name n => exact ofName_grammatical
    | forward | backward => exact .fail rfl
    | _ => exact absurd trivial ht

theorem unaryFactor_mirrors (h : Mirrors p q) :
    Mirrors (unaryFactor (c.during .second) p) (unaryFactor (c.during .first) q) := by
  refine .bind (.refl peekOperator_grammatical) fun sign => ?_
  cases sign with
  | none => exact factor_mirrors h
  | some op => exact .bind (.refl .next) fun _ => .bind (factor_mirrors h) fun e => .pure _

theorem chain_mirrors {kind : Operator → Option BinaryOp} (h : Mirrors p q) (n : Nat) (e : Expr) :
    Mirrors (chain kind p n e) (chain kind q n e) := by
  induction n generalizing e with
  | zero => exact .pure e
  | succ n ih =>
    refine .bind (.refl peekOperator_grammatical) fun sign => ?_
    cases sign with
    | none => exact .pure e
    | some op => exact .bind (.refl .next) fun _ => .bind h fun right => ih _

theorem operands_mirrors {kind : Operator → Option BinaryOp} (h : Mirrors p q) :
    Mirrors (operands kind p) (operands kind q) :=
  .bind h fun left => .bounded fun n => chain_mirrors h n left

theorem expression_mirrors (n : Nat) :
    Mirrors (expression (c.during .second) n) (expression (c.during .first) n) := by
  induction n with
  | zero => exact .fail
  | succ n ih => exact operands_mirrors (operands_mirrors (unaryFactor_mirrors ih))

theorem parse_mirrors : Mirrors (parse (c.during .second)) (parse (c.during .first)) :=
  .bounded fun n => expression_mirrors (n + 1)

end Expr

theorem Value.parse_mirrors {c : Context} :
    Mirrors (Value.parse (c.during .second)) (Value.parse (c.during .first)) := by
  refine .bind Expr.parse_mirrors fun e => ?_
  intro r v r' h
  obtain ⟨hv, rfl⟩ := lift_eq_ok h
  refine ⟨fun _ => rfl, [], .nil _, fun _ => ?_⟩
  show lift (e.evaluate .first) r' = _
  rw [Expr.evaluate_first hv]
  rfl

/-! ### Statements -/

namespace Statement

variable {c : Context}

theorem checkWidth_mirrors (fits : Bool) (error : StatementError) :
    Mirrors (checkWidth (c.during .second) fits error) (checkWidth (c.during .first) fits error) := by
  cases fits with
  | true => exact .pure ()
  | false => exact .fail

theorem operand_mirrors : Mirrors (operand (c.during .second)) (operand (c.during .first)) := by
  refine .bind (.refl .peek) fun ahead => ?_
  split
  · exact .bind Value.parse_mirrors fun v => .pure _
  · refine .next (fun t ht => ?_) fun t ht => ?_
    · obtain ⟨l, position⟩ := t
      cases l with
      | forward | backward => exact ht.elim
      | _ => exact .pure _
    · obtain ⟨l, position⟩ := t
      cases l with
      | forward | backward => exact .map (reference_grammatical rfl)
      | _ => exact .pure _

theorem expectValue_mirrors (what : String) :
    Mirrors (expectValue (c.during .second) what) (expectValue (c.during .first) what) := by
  refine .bind operand_mirrors fun value => ?_
  cases value with
  | inl v => exact .pure v
  | inr l => exact .fail

theorem parseOrigin_mirrors :
    Mirrors (parseOrigin (c.during .second)) (parseOrigin (c.during .first)) :=
  .bind (expectValue_mirrors _) fun _ => .bind (checkWidth_mirrors _ _) fun _ =>
    .bind (.refl endOfStatement_grammatical) fun _ => .pure _

theorem sequenceValue_mirrors :
    Mirrors (sequenceValue (c.during .second)) (sequenceValue (c.during .first)) := by
  refine .bind (.refl .peek) fun ahead => ?_
  split
  · exact .bind Value.parse_mirrors fun _ => .pure _
  · exact .bind (expectValue_mirrors _) fun _ => .pure _

theorem byteElement_mirrors :
    Mirrors (byteElement (c.during .second)) (byteElement (c.during .first)) := by
  refine .bind (.refl .peek) fun ahead => ?_
  split
  · exact .bind (.refl .next) fun _ => .pure _
  · exact .bind sequenceValue_mirrors fun _ => .bind (checkWidth_mirrors _ _) fun _ => .pure _

theorem wordElement_mirrors :
    Mirrors (wordElement (c.during .second)) (wordElement (c.during .first)) :=
  .bind sequenceValue_mirrors fun _ => .bind (checkWidth_mirrors _ _) fun _ => .pure _

theorem sequenceOf_mirrors {α : Type} {p q : Parser (List α)} (h : Mirrors p q) (n : Nat) :
    Mirrors (sequenceOf p n) (sequenceOf q n) := by
  induction n with
  | zero => exact .pure []
  | succ n ih =>
    refine .bind h fun first => .bind (.refl moreInSequence_grammatical) fun more => ?_
    cases more with
    | true => exact .bind ih fun _ => .pure _
    | false => exact .pure _

theorem sequence_mirrors {α : Type} {p q : Parser (List α)} (h : Mirrors p q) :
    Mirrors (sequence p) (sequence q) :=
  .bounded fun n => sequenceOf_mirrors h (n + 1)

theorem parseNamed_mirrors (name : Name) (column : Nat) :
    Mirrors (parseNamed (c.during .second) name column)
      (parseNamed (c.during .first) name column) := by
  refine .bind (.refl .peek) fun ahead => ?_
  split
  · split
    · exact .fail
    · exact .bind (.refl .next) fun _ => .bind (expectValue_mirrors _) fun _ =>
        .bind (checkWidth_mirrors _ _) fun _ =>
          .bind (.refl endOfStatement_grammatical) fun _ => .pure _
  · split
    · exact .fail
    · exact .bind (.refl skipLineEnd_grammatical) fun _ => .pure _

theorem directOperand_mirrors (m : Mnemonic) (v : Int32) :
    Mirrors (directOperand (c.during .second) m v) (directOperand (c.during .first) m v) := by
  refine .bind (checkWidth_mirrors _ _) fun _ => .bind (.refl .next) fun t => ?_
  split
  · exact .pure _
  · exact .pure _
  · refine .bind (.refl .next) fun t => ?_
    split
    · exact .bind (.refl endOfStatement_grammatical) fun _ => .pure _
    · exact .bind (.refl endOfStatement_grammatical) fun _ => .pure _
    · exact .fail
  · exact .fail

theorem indirectOperand_mirrors :
    Mirrors (indirectOperand (c.during .second)) (indirectOperand (c.during .first)) := by
  refine .bind (expectValue_mirrors _) fun value => .bind (checkWidth_mirrors _ _) fun _ =>
    .bind (.refl indirectMode_grammatical) fun mode =>
      .bind (.refl endOfStatement_grammatical) fun _ => ?_
  split
  · exact .bind (checkWidth_mirrors _ _) fun _ => .pure _
  · exact .pure _

theorem immediateOperand_mirrors :
    Mirrors (immediateOperand (c.during .second)) (immediateOperand (c.during .first)) :=
  .bind (expectValue_mirrors _) fun _ => .bind (checkWidth_mirrors _ _) fun _ =>
    .bind (.refl endOfStatement_grammatical) fun _ => .pure _

theorem parseOperand_mirrors (m : Mnemonic) :
    Mirrors (parseOperand (c.during .second) m) (parseOperand (c.during .first) m) := by
  refine .bind operand_mirrors fun value => ?_
  split
  · exact directOperand_mirrors m _
  · exact .pure _
  · exact .pure _
  · exact .bind (.refl endOfStatement_grammatical) fun _ => .pure _
  · exact immediateOperand_mirrors
  · exact indirectOperand_mirrors
  · exact .fail

/-- A statement from its first token on. -/
theorem parseFrom_mirrors (t : Token Name) :
    Mirrors (parseFrom (c.during .second) t) (parseFrom (c.during .first) t) := by
  unfold parseFrom
  split
  · exact .bind (parseOperand_mirrors _) fun _ => .pure _
  · exact .pure _
  · exact parseOrigin_mirrors
  · exact .bind (.refl expect_grammatical) fun _ => parseOrigin_mirrors
  · exact .refl parseInclude_grammatical
  · exact .bind (.refl skipLineEnd_grammatical) fun _ => .pure _
  · exact .bind (sequence_mirrors byteElement_mirrors) fun _ => .pure _
  · exact .bind (sequence_mirrors wordElement_mirrors) fun _ => .pure _
  · exact .refl parseOpenScope_grammatical
  · exact .bind (.refl endOfStatement_grammatical) fun _ => .pure _
  · exact parseNamed_mirrors _ _
  · exact .pure _

/-- A statement begins with the first token behind at most one line end. -/
theorem firstToken_tokens {r r' : Reading} {t : Token Name} (h : firstToken r = .ok t r') :
    ∃ front l, (front = [] ∨ front = [.lineEnd]) ∧ r.cursor.Tokens (front ++ [l]) r'.cursor ∧
      ∃ σ, t.lexeme = (l.bind σ).1 := by
  obtain ⟨t₁, r₁, hnext, hrest⟩ := bind_eq_ok h
  obtain ⟨token, hcursor, rfl, -⟩ := next_eq_ok hnext
  split at hrest
  · next hline =>
    obtain ⟨token', hcursor', rfl, -⟩ := next_eq_ok hrest
    have hend : token.lexeme = .lineEnd := by
      cases hl : token.lexeme <;> simp [hl, Lexeme.bind] at hline ⊢
    refine ⟨[.lineEnd], token'.lexeme, .inr rfl, ?_, _, rfl⟩
    rw [← hend]
    exact .cons hcursor (.one hcursor')
  · cases hrest
    exact ⟨[], token.lexeme, .inl rfl, .one hcursor, _, rfl⟩

end Statement

/-- What is encoded in the second pass is encoded in the first, in as many bytes. -/
theorem Instruction.encode_first {i : Instruction} {address : Int32} {bytes : List UInt8}
    (h : i.encode .second address = .ok bytes) :
    ∃ bytes', i.encode .first address = .ok bytes' ∧ bytes'.length = bytes.length := by
  have hencoded : ∃ bytes', i.encode .first address = .ok bytes' := by
    rw [encode_eq] at h ⊢
    split at h
    · cases h
    · exact ⟨_, if_neg fun hfirst => by cases hfirst.2⟩
  obtain ⟨bytes', hbytes⟩ := hencoded
  exact ⟨bytes', hbytes, (length_encode hbytes).trans (length_encode h).symm⟩

/-- A statement that the second pass accepts, with no reference to an anonymous label in it and with
a value for every name that is read in one of its expressions, is read by the first pass as the same
statement, up to the same place and with the same scopes behind it.  An instruction that the second
pass encodes is encoded by the first pass, in as many bytes. -/
theorem Statement.parse_first_of_second {c : Context} {r r' s : Reading} {statement : Statement}
    {lexemes : List (Lexeme Name)} (h : Statement.parse (c.during .second) r = .ok statement r')
    (hyields : r.Yields lexemes s) (hend : s.cursor = r'.cursor)
    (hforward : .forward ∉ lexemes) (hbackward : .backward ∉ lexemes)
    (hvalued : ∀ n, .name n ∈ Lexeme.withinExpressions lexemes → n.symbol.value.isSome) :
    Statement.parse (c.during .first) r = .ok statement r' ∧
      ∀ i address bytes, statement = .instruction i → i.encode .second address = .ok bytes →
        ∃ bytes', i.encode .first address = .ok bytes' ∧ bytes'.length = bytes.length := by
  refine ⟨?_, fun i address bytes _ hencode => Instruction.encode_first hencode⟩
  have hread : ∀ l ∈ Lexeme.withinExpressions lexemes, l.SettledAsRead := by
    intro l hl
    cases l with
    | name n => exact hvalued n hl
    | forward => exact absurd (Lexeme.mem_of_mem_withinExpressions hl) hforward
    | backward => exact absurd (Lexeme.mem_of_mem_withinExpressions hl) hbackward
    | _ => trivial
  -- the lexemes as they were read say what stands at the cursor, whichever way it was read
  obtain ⟨ts, hts, -, hwithin⟩ := hyields.tokens
  rw [hend] at hts
  obtain ⟨t, r₁, hfirst, hrest⟩ := bind_eq_ok h
  obtain ⟨front, l, hfront, hl, σ, ht⟩ := firstToken_tokens hfirst
  obtain ⟨-, us, hus, hfrom⟩ := parseFrom_mirrors t hrest
  show (firstToken >>= parseFrom (c.during .first)) r = _
  rw [bind_of_ok hfirst]
  obtain ⟨lexeme, position⟩ := t
  by_cases hscope : l = .directive .openScope
  · -- the name of a scope needs no value, and the passes do not differ here
    cases hscope
    cases ht
    exact hrest
  by_cases hline : l = .lineEnd
  · cases hline
    cases ht
    exact hrest
  have hsame : r.scopes.SameCarried r₁.scopes :=
    (firstToken_grammatical.follows Reading.kept_sameCarried).of_ok hfirst
  refine hfrom fun x hx => (Lexeme.settledIn_congr hsame).mpr ?_
  have hmem : x ∈ Lexeme.withinExpressions (front ++ [l] ++ us) := by
    have hbehind := Lexeme.mem_withinExpressions_cons hline hscope hx
    rcases hfront with rfl | rfl
    · exact hbehind
    · exact hbehind
  rcases (hl.append hus).withinExpressions_unique hts hmem with hx | rfl
  · exact hwithin hread x hx
  · trivial

/-- A scope with a value of its own, inside one that has a label. -/
def nearby : Scopes where
  path := ["p"]
  table := (FiniteMap.empty.insert ⟨[], "near"⟩ ⟨.label, some 0xff0⟩).insert ⟨["p"], "n"⟩
    ⟨.identifier, some 3⟩
  bounded := by decide

/-- A branch to an outer label: only the second pass asks how far it is, and both passes encode it in
two bytes. -/
theorem Statement.parse_first_of_second_branch :
    let r := Reading.start ⟨"main", none, Byte.ofChars " bne near+n*2\n".toList⟩ nearby
    let c := Context.plain .first 0x1000
    let branch : Instruction := ⟨.bne, .relative, 0xff6⟩
    ∃ r', Statement.parse (c.during .second) r = .ok (.instruction branch) r' ∧
      Statement.parse (c.during .first) r = .ok (.instruction branch) r' ∧
      branch.encode .second 0x1000 = .ok [0xd0, 0xf4] ∧
      ∃ bytes, branch.encode .first 0x1000 = .ok bytes ∧ bytes.length = 2 := by
  intro r c branch
  obtain ⟨r', hparse⟩ := exists_of_result?
    (show result? (Statement.parse (c.during .second)) r = some (.instruction branch) by
      decide +kernel)
  have hend : (r.advance 7).2.cursor = r'.cursor := by
    rw [← after_of_ok hparse]
    decide +kernel
  have hlexemes : (r.advance 7).1 = [.mnemonic .bne, .name ⟨"near", .label, some 0xff0⟩,
      .operator .plus, .name ⟨"n", .identifier, some 3⟩, .operator .star, .constant 2, .lineEnd] := by
    decide +kernel
  have hyields := r.yields_advance 7
  rw [hlexemes] at hyields
  have hencoded : branch.encode .second 0x1000 = .ok [0xd0, 0xf4] := by decide
  obtain ⟨hfirst, hencode⟩ := parse_first_of_second hparse hyields hend (by decide) (by decide)
    (by simp [Lexeme.withinExpressions])
  exact ⟨r', hparse, hfirst, hencoded, hencode branch 0x1000 _ rfl hencoded⟩

end Assembler6502
