/-
Byte operators and the class of an expression.

An expression with an address in it has one class, which `<` and `>` narrow to a
byte, wherever they stand.  So two expressions that have a value each need not
have one together: `<v` and `(>v)<<8` do, but `(<v)|((>v)<<8)` has none if `v` is
a label.  Apart from divisions by zero, this is all that goes wrong.

* **`Relocation.narrow`** — what bytes of numbers make of a class, in whatever
  order they are taken;
* **`narrow_of_compute`**, **`compute_of_narrow`** — an expression narrows the
  class by the operators that occur in it, and its number does not depend on the
  class;
* **`Expr.byte_operators`** — when expressions with byte operators have values,
  alone and combined.
-/
import Assembler6502.Proofs.Expression.Recognition

namespace Assembler6502

open Assembler6502.Parser

/-! ### Classes -/

namespace Relocation

/-- The class after low bytes or high bytes were taken.  There is none if both of them were, of an
expression with an address in it. -/
def narrow : Relocation → (low high : Bool) → Option Relocation
  | absolute, _, _ => some absolute
  | ρ, false, false => some ρ
  | relocatable, true, false | lowByte, true, false => some lowByte
  | relocatable, false, true | highByte, false, true => some highByte
  | _, _, _ => none

variable {ρ ρ' : Relocation} {low high : Bool}

/-- It does not matter in which order the bytes were taken. -/
theorem narrow_narrow (ρ : Relocation) (low high low' high' : Bool) :
    (ρ.narrow low high).bind (fun ρ' => ρ'.narrow low' high') =
      ρ.narrow (low || low') (high || high') := by
  cases ρ <;> cases low <;> cases high <;> cases low' <;> cases high' <;> rfl

theorem narrow_eq_none {address : Bool} :
    (if address then relocatable else absolute).narrow low high = none ↔
      address = true ∧ low = true ∧ high = true := by
  cases address <;> cases low <;> cases high <;> decide

end Relocation

theorem UnaryOp.relocate_eq_ok {op : UnaryOp} {ρ ρ' : Relocation} :
    op.relocate ρ = .ok ρ' ↔ ρ.narrow (op == .lowByte) (op == .highByte) = some ρ' := by
  cases op <;> cases ρ <;> constructor <;> intro h <;> cases h <;> rfl

namespace Phrase

/-- Whether an operator occurs in front of a factor. -/
def takes (op : UnaryOp) : Phrase → Bool
  | constant _ | here | name _ => false
  | unary op' operand => operand.takes op || op' == op
  | binary _ left right => left.takes op || right.takes op

/-- An address occurs in the phrase, and low bytes and high bytes are taken in it. -/
def Mixed (σ : Scopes) (p : Phrase) : Prop :=
  p.mentionsAddress σ = true ∧ p.takes .lowByte = true ∧ p.takes .highByte = true

/-- What a phrase makes of a class. -/
def narrow (p : Phrase) (ρ : Relocation) : Option Relocation :=
  ρ.narrow (p.takes .lowByte) (p.takes .highByte)

variable {σ : Scopes} {address : Int32} {pass : Pass} {p : Phrase} {ρ ρ' : Relocation}
  {x : Int32 × Relocation} {v : Int32}

theorem narrow_unary {op : UnaryOp} :
    (unary op p).narrow ρ = some ρ' ↔ ∃ ρ₁, p.narrow ρ = some ρ₁ ∧ op.relocate ρ₁ = .ok ρ' := by
  simp only [narrow, takes, ← Relocation.narrow_narrow, Option.bind_eq_some_iff,
    UnaryOp.relocate_eq_ok]

theorem narrow_binary {op : BinaryOp} {left right : Phrase} :
    (binary op left right).narrow ρ = some ρ' ↔
      ∃ ρ₁, left.narrow ρ = some ρ₁ ∧ right.narrow ρ₁ = some ρ' := by
  simp only [narrow, takes, ← Relocation.narrow_narrow, Option.bind_eq_some_iff]

theorem narrow_eq_none (address : Int32) :
    p.narrow (p.expr σ address).program.relocation = none ↔ p.Mixed σ := by
  rw [narrow, Expr.program, mentionsAddress_expr, Relocation.narrow_eq_none, Mixed]

/-! ### Numbers and classes of expressions -/

/-- The class of an expression is narrowed by the operators that occur in it. -/
theorem narrow_of_compute (h : (p.expr σ address).compute pass ρ = .ok x) :
    p.narrow ρ = some x.2 := by
  induction p generalizing ρ x with
  | constant | here | name =>
    cases h
    cases ρ <;> rfl
  | unary op p ih =>
    obtain ⟨a, ρ₁, ha, hrelocate, -⟩ := Expr.compute_unary.mp h
    exact narrow_unary.mpr ⟨ρ₁, ih ha, hrelocate⟩
  | binary op left right ihl ihr =>
    obtain ⟨b, a, ρ₁, hb, ha, -⟩ := Expr.compute_binary.mp h
    exact narrow_binary.mpr ⟨ρ₁, ihl hb, ihr (x := (a, x.2)) ha⟩

/-- An expression that has a number has the same one whatever the class, if there is a class to
narrow it to. -/
theorem compute_of_narrow (h : (p.expr σ address).compute pass ρ = .ok x) {ρ₀ ρ' : Relocation}
    (hnarrow : p.narrow ρ₀ = some ρ') : (p.expr σ address).compute pass ρ₀ = .ok (x.1, ρ') := by
  induction p generalizing ρ x ρ₀ ρ' with
  | constant | here | name =>
    cases h
    cases ρ₀ <;> cases hnarrow <;> rfl
  | unary op p ih =>
    obtain ⟨a, ρ₁, ha, -, hx⟩ := Expr.compute_unary.mp h
    obtain ⟨ρ₂, hp, hrelocate⟩ := narrow_unary.mp hnarrow
    exact Expr.compute_unary.mpr ⟨a, ρ₂, ih ha hp, hrelocate, hx⟩
  | binary op left right ihl ihr =>
    obtain ⟨b, a, ρ₁, hb, ha, hx⟩ := Expr.compute_binary.mp h
    obtain ⟨ρ₂, hleft, hright⟩ := narrow_binary.mp hnarrow
    exact Expr.compute_binary.mpr ⟨b, a, ρ₂, ihl hb hleft, ihr ha hright, hx⟩

/-- If there is a class to narrow an expression to, only a division by zero is an error. -/
theorem eq_divisionByZero_of_narrow {e : StatementError}
    (h : (p.expr σ address).compute pass ρ = .error e) (hnarrow : p.narrow ρ = some ρ') :
    e = .divisionByZero := by
  induction p generalizing ρ ρ' with
  | constant | here | name => cases h
  | unary op p ih =>
    obtain ⟨ρ₁, hp, hrelocate⟩ := narrow_unary.mp hnarrow
    rcases Expr.error_of_compute_unary h with he | ⟨a, ρ₂, ha, hrelocate'⟩
    · exact ih he hp
    · -- the operand has left the class that it is narrowed to, and the operator takes that
      rw [narrow_of_compute ha] at hp
      cases hp
      rw [hrelocate] at hrelocate'
      cases hrelocate'
  | binary op left right ihl ihr =>
    obtain ⟨ρ₁, hleft, hright⟩ := narrow_binary.mp hnarrow
    rcases Expr.error_of_compute_binary h with hl | ⟨b, ρ₂, hb, hr | ⟨a, ρ₃, -, happly⟩⟩
    · exact ihl hl hleft
    · rw [narrow_of_compute hb] at hleft
      cases hleft
      exact ihr hr hright
    · exact BinaryOp.eq_divisionByZero happly

/-- An expression has a value, or it divides by zero, or its class is gone. -/
theorem evaluate_cases (σ : Scopes) (address : Int32) (pass : Pass) (p : Phrase) :
    (∃ v, (p.expr σ address).evaluate pass = .ok v ∧ ¬ p.Mixed σ) ∨
      (p.expr σ address).evaluate pass = .error .divisionByZero ∨
      ∃ e, (p.expr σ address).evaluate pass = .error e ∧ e.isAmbiguous = true ∧ p.Mixed σ := by
  rw [Expr.evaluate_eq]
  cases h : (p.expr σ address).compute pass (p.expr σ address).program.relocation with
  | ok x =>
    refine .inl ⟨_, rfl, fun hmixed => ?_⟩
    rw [← narrow_eq_none address, narrow_of_compute h] at hmixed
    cases hmixed
  | error e =>
    rcases Expr.error_of_compute h with rfl | hambiguous
    · exact .inr (.inl rfl)
    · refine .inr (.inr ⟨e, rfl, hambiguous, ?_⟩)
      rw [← narrow_eq_none address]
      refine Option.eq_none_iff_forall_ne_some.mpr fun ρ' hρ' => ?_
      cases eq_divisionByZero_of_narrow h hρ'
      cases hambiguous

/-- Two expressions with values have one together, unless it divides by zero or its class is
gone. -/
theorem evaluate_binary {op : BinaryOp} {left right : Phrase} {v₁ v₂ : Value}
    (h₁ : (left.expr σ address).evaluate .second = .ok v₁)
    (h₂ : (right.expr σ address).evaluate .second = .ok v₂) :
    (∃ v, ((binary op left right).expr σ address).evaluate .second = .ok v) ↔
      ¬ (op = .div ∧ v₂.number = 0) ∧ ¬ (binary op left right).Mixed σ := by
  have hleft := Expr.evaluate_eq_ok.mp h₁
  have hright := Expr.evaluate_eq_ok.mp h₂
  rw [← narrow_eq_none address, ← ne_eq, Option.ne_none_iff_exists']
  constructor
  · rintro ⟨v, hv⟩
    have hcompute := Expr.evaluate_eq_ok.mp hv
    obtain ⟨b, a, ρ₁, -, ha, happly⟩ := Expr.compute_binary.mp hcompute
    -- the right operand starts from another class here, but it has the same number
    have hnumber : a = v₂.number := by
      rw [← Int32.toInt_inj, Expr.toInt_of_compute ha, Expr.toInt_of_compute hright]
    subst hnumber
    exact ⟨(BinaryOp.apply_second.mp happly).1, _, narrow_of_compute hcompute⟩
  · rintro ⟨hdiv, ρ', hnarrow⟩
    obtain ⟨ρ₁, hρ₁, hρ'⟩ := narrow_binary.mp hnarrow
    obtain ⟨w, hw⟩ := BinaryOp.exists_apply (b := v₁.number) hdiv .second
    refine ⟨⟨w, ρ'⟩, Expr.evaluate_eq_ok.mpr (Expr.compute_binary.mpr ?_)⟩
    exact ⟨v₁.number, v₂.number, ρ₁, compute_of_narrow hleft hρ₁, compute_of_narrow hright hρ', hw⟩

end Phrase

/-! ### Expressions in parentheses -/

/-- The lexemes of an expression in parentheses. -/
def parenthesized (ts : List (Lexeme Spelling)) : List (Lexeme Spelling) :=
  .leftParen :: (ts ++ [.rightParen])

namespace Derives

variable {rank : Rank} {ts us : List (Lexeme Spelling)} {p q : Phrase}

theorem unary_of_parens (h : Derives .expression ts p) : Derives .unary (parenthesized ts) p :=
  .factor (.parens h)

/-- An operand that is alone. -/
theorem operands_of_operand (rank : Rank) (h : Derives rank.operand ts p) :
    Derives (.operands rank) ts p := by
  simpa using Derives.operands h .stop

theorem operand_of_unary (h : Derives .unary ts p) : Derives rank.operand ts p := by
  cases rank with
  | product => exact h
  | sum => exact operands_of_operand .product h

/-- Two operands with an operator between them, whatever its rank. -/
theorem expression_of_unary (h : Derives .unary ts p) (h' : Derives .unary us q) (op : BinaryOp) :
    Derives .expression (ts ++ .operator op.sign :: us) (.binary op p q) := by
  have hbinary : ∀ rank : Rank, op ∈ rank.operators →
      Derives (.operands rank) (ts ++ .operator op.sign :: us) (.binary op p q) := by
    intro rank hop
    simpa using Derives.operands (operand_of_unary h) (.more hop (operand_of_unary h') .stop)
  rcases List.mem_append.mp (Rank.mem_pending op) with hop | hop
  · exact hbinary .sum hop
  · exact operands_of_operand .sum (hbinary .product hop)

end Derives

/-! ### A word from its bytes -/

/-- `(<l)|((>l)<<8)` -/
def recombined (l : Lexeme Spelling) : List (Lexeme Spelling) :=
  parenthesized [.operator .less, l] ++ .operator .pipe ::
    parenthesized (parenthesized [.operator .greater, l] ++ [.operator .shiftLeft, .constant 8])

def Phrase.recombined (leaf : Phrase) : Phrase :=
  .binary .or (.unary .lowByte leaf)
    (.binary .shiftLeft (.unary .highByte leaf) (.constant 8))

theorem Derives.recombined {l : Lexeme Spelling} {leaf : Phrase} (h : Derives .factor [l] leaf) :
    Derives .expression (Assembler6502.recombined l) leaf.recombined := by
  have hbyte : ∀ {op : UnaryOp} {sign : Operator}, sign ∈ op.signs →
      Derives .unary (parenthesized [.operator sign, l]) (.unary op leaf) :=
    fun hsign => unary_of_parens (operands_of_operand .sum
      (operand_of_unary (.unary hsign h)))
  refine expression_of_unary (hbyte (by decide)) (unary_of_parens ?_) .or
  exact expression_of_unary (hbyte (by decide)) (.factor (.constant 8)) .shiftLeft

theorem or_bytes_of_nat {n : Nat} (h : n ≤ 0xffff) : (n &&& 255) ||| ((n / 256 &&& 255) * 256) = n := by
  have hlow : n &&& 255 = n % 256 := Nat.and_two_pow_sub_one_eq_mod n 8
  have hhigh : n / 256 &&& 255 = n / 256 := by
    rw [Nat.and_two_pow_sub_one_eq_mod (n / 256) 8]
    omega
  rw [hlow, hhigh, Nat.or_comm, Nat.mul_comm, ← Nat.two_pow_add_eq_or_of_lt (i := 8) (by omega)]
  omega

/-- A word is its low byte and its high byte. -/
theorem or_bytes_of_word {n : Int32} (hpos : 0 ≤ n.toInt) (hword : n.toInt ≤ 0xffff) :
    UnaryOp.lowByte.apply n ||| UnaryOp.highByte.apply n <<< (8 : Int32) = n := by
  rw [← Int32.toInt_inj, toInt_or, toInt_shiftLeft, UnaryOp.toInt_apply, UnaryOp.toInt_apply]
  obtain ⟨m, hm⟩ := Int.eq_ofNat_of_zero_le hpos
  rw [hm] at hword ⊢
  have hshift : ((8 : Int32).toInt % 32).toNat = 8 := rfl
  have hword' : m ≤ 0xffff := by omega
  -- the high byte is small enough to be moved without loss
  have hbyte : m / 256 &&& 255 ≤ 255 := Nat.and_le_right
  have hhigh : wrap (((m / 256 &&& 255 : Nat) : Int) * 256) =
      (((m / 256 &&& 255) * 256 : Nat) : Int) := by
    rw [wrap, Int.bmod_eq_of_le (by omega) (by omega)]
    push_cast
    rfl
  rw [hshift]
  show Int.lor ((m &&& 255 : Nat) : Int) (wrap (((m / 256 &&& 255 : Nat) : Int) * 256)) = (m : Int)
  rw [hhigh]
  exact congrArg Nat.cast (or_bytes_of_nat hword')

/-- The value of a constant or a name. -/
def Scopes.valueOf? (σ : Scopes) : Lexeme Spelling → Option Definition
  | .constant number => some ⟨.identifier, number⟩
  | .name written => σ.resolve written.text
  | _ => none

theorem Phrase.exists_leaf {σ : Scopes} {l : Lexeme Spelling} {definition : Definition}
    (h : σ.valueOf? l = some definition) (address : Int32) :
    ∃ leaf, Derives .factor [l] leaf ∧ leaf.Defined σ ∧
      leaf.expr σ address = .value definition.value (definition.kind = .label) := by
  cases l with
  | constant number =>
    cases h
    exact ⟨_, .constant number, nofun, rfl⟩
  | name written =>
    have hd : σ.resolve written.text = some definition := h
    refine ⟨_, .name written, fun name hname => ?_, ?_⟩
    · cases List.mem_singleton.mp hname
      exact ⟨definition, hd⟩
    · simp [Phrase.expr, Scopes.numberOf, Scopes.isLabel, hd]
  | _ => cases h

theorem Phrase.defined_recombined {σ : Scopes} {leaf : Phrase} (h : leaf.Defined σ) :
    leaf.recombined.Defined σ := by
  intro name hname
  simp only [recombined, names, List.append_nil, List.mem_append, or_self] at hname
  exact h name hname

/-- The bytes of a number make it up again; those of a label clash. -/
theorem Phrase.evaluate_recombined {σ : Scopes} {address : Int32} {leaf : Phrase}
    {definition : Definition}
    (hleaf : leaf.expr σ address = .value definition.value (definition.kind = .label))
    (hpos : 0 ≤ definition.value.toInt) (hword : definition.value.toInt ≤ 0xffff) :
    (leaf.recombined.expr σ address).evaluate .second =
      if definition.kind = .label then .error .highByteOfLowByte
      else .ok ⟨definition.value, .absolute⟩ := by
  have hbytes := or_bytes_of_word hpos hword
  rw [Expr.evaluate_eq, Expr.program]
  simp only [recombined, expr, hleaf, Expr.mentionsAddress, Bool.or_false, Bool.or_self]
  by_cases hlabel : definition.kind = .label
  · rw [if_pos hlabel]
    simp only [hlabel]
    rfl
  · simp only [hlabel, decide_false, Bool.false_eq_true, if_false]
    exact congrArg (fun number => Except.ok (⟨number, .absolute⟩ : Value)) hbytes

namespace Expr

/-- An expression evaluates to a value where the scopes are as given. -/
def EvaluatesTo (c : Context) (σ : Scopes) (ts : List (Lexeme Spelling)) (p : Phrase) (v : Value) :
    Prop :=
  ∃ r r' : Reading, r.scopes = σ ∧ r.cursor.Sentence ts p r'.cursor ∧ Value.parse c r = .ok v r'

variable {c : Context} {σ : Scopes} {ts : List (Lexeme Spelling)} {p : Phrase} {v : Value}

theorem EvaluatesTo.evaluate (h : EvaluatesTo c σ ts p v) (hpass : c.pass = .second) :
    Derives .expression ts p ∧ p.Defined σ ∧
      (p.expr σ c.address).evaluate .second = .ok v := by
  obtain ⟨r, r', rfl, hsentence, hv⟩ := h
  obtain ⟨ts', p', hsentence', hdefined, hv'⟩ := sentence_of_value hpass hv
  obtain ⟨-, rfl, -⟩ := hsentence'.unique hsentence
  exact ⟨hsentence.derives, hdefined, hv'⟩

/-- What byte operators do to expressions in the second pass. -/
theorem byte_operators_combine (hpass : c.pass = .second) (σ : Scopes) :
    -- an expression has no value if it mixes low and high bytes, and fails at a byte operator
    -- only then
    (∀ (r : Reading) ts p d, r.scopes = σ → r.cursor.Sentence ts p d → p.Defined σ →
      ∃ r' : Reading, r'.cursor = d ∧
        ((∃ v, Value.parse c r = .ok v r' ∧ ¬ p.Mixed σ) ∨
          Value.parse c r = .error (r'.diagnostic .divisionByZero) r' ∨
          ∃ e : StatementError, Value.parse c r = .error (r'.diagnostic e) r' ∧
            e.isAmbiguous = true ∧ p.Mixed σ)) ∧
    -- two expressions with values have the value of the operator, unless they mix bytes together
    (∀ (op : BinaryOp) ts₁ p₁ v₁ ts₂ p₂ v₂, EvaluatesTo c σ ts₁ p₁ v₁ → EvaluatesTo c σ ts₂ p₂ v₂ →
      ∀ (r : Reading) d, r.scopes = σ →
        r.cursor.Tokens (parenthesized ts₁ ++ .operator op.sign :: parenthesized ts₂) d →
        d.EndsExpression →
        ((∃ v r', Value.parse c r = .ok v r') ↔
          ¬ (op = .div ∧ v₂.number = 0) ∧ ¬ (Phrase.binary op p₁ p₂).Mixed σ) ∧
        ∀ v r', Value.parse c r = .ok v r' →
          r'.cursor = d ∧ v.number.toInt = op.denote v₁.number.toInt v₂.number.toInt) ∧
    -- a word is put together from its bytes, unless it is a label
    (∀ (l : Lexeme Spelling) definition, σ.valueOf? l = some definition →
      0 ≤ definition.value.toInt → definition.value.toInt ≤ 0xffff →
      ∀ (r : Reading) d, r.scopes = σ → r.cursor.Tokens (recombined l) d → d.EndsExpression →
        ∃ r' : Reading, r'.cursor = d ∧ Value.parse c r =
          if definition.kind = .label then .error (r'.diagnostic .highByteOfLowByte) r'
          else .ok ⟨definition.value, .absolute⟩ r') := by
  refine ⟨?_, ?_, ?_⟩
  · rintro r ts p d rfl hsentence hdefined
    obtain ⟨r', hd, hvalue⟩ := value_of_sentence hpass hsentence hdefined
    refine ⟨r', hd, ?_⟩
    rw [hvalue]
    rcases p.evaluate_cases r.scopes c.address .second with
      ⟨v, hv, hmixed⟩ | hzero | ⟨e, he, hambiguous, hmixed⟩
    · exact .inl ⟨v, by rw [hv]; rfl, hmixed⟩
    · exact .inr (.inl (by rw [hzero]; rfl))
    · exact .inr (.inr ⟨e, by rw [he]; rfl, hambiguous, hmixed⟩)
  · rintro op ts₁ p₁ v₁ ts₂ p₂ v₂ h₁ h₂ r d rfl htokens hends
    obtain ⟨hderives₁, hdefined₁, hv₁⟩ := h₁.evaluate hpass
    obtain ⟨hderives₂, hdefined₂, hv₂⟩ := h₂.evaluate hpass
    have hsentence : r.cursor.Sentence _ (.binary op p₁ p₂) d :=
      ⟨htokens, .expression_of_unary (.unary_of_parens hderives₁) (.unary_of_parens hderives₂) op,
        hends⟩
    obtain ⟨r', hd, hvalue⟩ := value_of_sentence hpass hsentence
      (Phrase.defined_binary.mpr ⟨hdefined₁, hdefined₂⟩)
    constructor
    · rw [← Phrase.evaluate_binary hv₁ hv₂, hvalue]
      constructor
      · rintro ⟨v, r'', h⟩
        exact ⟨v, (lift_eq_ok h).1⟩
      · rintro ⟨v, h⟩
        exact ⟨v, r', by rw [h]; rfl⟩
    · intro v r'' h
      rw [hvalue] at h
      obtain ⟨hv, rfl⟩ := lift_eq_ok h
      refine ⟨hd, ?_⟩
      rw [toInt_of_compute (evaluate_eq_ok.mp hv), toInt_of_compute (evaluate_eq_ok.mp hv₁),
        toInt_of_compute (evaluate_eq_ok.mp hv₂)]
      rfl
  · rintro l definition hl hpos hword r d rfl htokens hends
    obtain ⟨leaf, hderives, hdefined, hexpr⟩ := Phrase.exists_leaf hl c.address
    have hsentence : r.cursor.Sentence _ leaf.recombined d := ⟨htokens, hderives.recombined, hends⟩
    obtain ⟨r', hd, hvalue⟩ := value_of_sentence hpass hsentence (Phrase.defined_recombined hdefined)
    refine ⟨r', hd, ?_⟩
    rw [hvalue, Phrase.evaluate_recombined hexpr hpos hword]
    split <;> rfl

/-- The bytes of a label have values, but not together. -/
theorem byte_operators_combine_label :
    (∃ r', Value.parse (.plain .second 0x1000)
        (.start ⟨"main", none, Byte.ofChars "<v".toList⟩
          (Scopes.empty.insert "v" ⟨.label, some 0x1234⟩)) = .ok ⟨0x34, .lowByte⟩ r') ∧
      (∃ r', Value.parse (.plain .second 0x1000)
        (.start ⟨"main", none, Byte.ofChars "(>v)<<8".toList⟩
          (Scopes.empty.insert "v" ⟨.label, some 0x1234⟩)) = .ok ⟨0x1200, .highByte⟩ r') ∧
      ∃ r' : Reading, Value.parse (.plain .second 0x1000)
        (.start ⟨"main", none, Byte.ofChars "(<v)|((>v)<<8)".toList⟩
          (Scopes.empty.insert "v" ⟨.label, some 0x1234⟩)) =
        .error (r'.diagnostic .highByteOfLowByte) r' := by
  refine ⟨exists_of_result? (by decide +kernel), exists_of_result? (by decide +kernel), ?_⟩
  have hlexemes : (Cursor.ofBytes (Byte.ofChars "(<v)|((>v)<<8)".toList)).firstLexemes 14 =
      recombined (.name ⟨"v", false⟩) ++ [.endOfInput] := by decide +kernel
  obtain ⟨_, htokens⟩ :=
    Cursor.exists_tokens 14 (.ofBytes (Byte.ofChars "(<v)|((>v)<<8)".toList))
  rw [hlexemes] at htokens
  obtain ⟨d, htokens, hend⟩ := htokens.of_append
  obtain ⟨t, _, hnext, ht, -⟩ := hend.of_cons
  obtain ⟨r', -, h⟩ := (byte_operators_combine (c := .plain .second 0x1000) rfl
    (Scopes.empty.insert "v" ⟨.label, some 0x1234⟩)).2.2 (.name ⟨"v", false⟩) ⟨.label, 0x1234⟩
    (by decide +kernel) (by decide) (by decide)
    (.start ⟨"main", none, Byte.ofChars "(<v)|((>v)<<8)".toList⟩
      (Scopes.empty.insert "v" ⟨.label, some 0x1234⟩)) d rfl htokens ⟨t, _, hnext, by simp [ht]⟩
  exact ⟨r', h⟩

end Expr

end Assembler6502
