/-
The grammar of expressions as a relation.

    expression := term (('+' | '-' | '|') term)*
    term       := unary (('*' | '/' | '&' | '^' | '<<' | '>>') unary)*
    unary      := ('-' | '\' | '~' | '<' | '>') factor | factor
    factor     := constant | '*' | name | '(' expression ')'

A phrase is an expression as it is written.  The scopes have no part in the
grammar: they say what the names in a phrase stand for.

* **`Derives`** — a list of lexemes is a part of an expression, and which phrase
  it is;
* **`Derives.unique`** — of two such parts at the same place, neither of which
  can go on, neither is longer, and they are the same phrase;
* **`Phrase.postorder`**, **`Phrase.denote`**, **`Phrase.mentionsAddress`** — the
  items of a phrase, its number, and whether an address occurs in it;
* **`Phrase.expr`** — the expression that a phrase is with its names looked up.

Design notes.  An expression and a term have one rule, which is over the rank of
their operators.  What follows an operand is a part of its own that holds the
phrase to its left, so operators of a rank group to the left.
-/
import Assembler6502.Proofs.Expression.Evaluation
import Assembler6502.Proofs.Expression.Names

namespace Assembler6502

/-- An expression as it is written. -/
inductive Phrase where
  | constant (number : Int32)
  /-- The current address. -/
  | here
  | name (written : Spelling)
  | unary (op : UnaryOp) (operand : Phrase)
  | binary (op : BinaryOp) (left right : Phrase)
deriving DecidableEq, Repr

/-! ### The grammar -/

/-- The signs that an operator has in front of a factor. -/
def UnaryOp.signs : UnaryOp → List Operator
  | negate => [.minus, .negate]
  | complement => [.tilde]
  | lowByte => [.less]
  | highByte => [.greater]

/-- Operators between operands are of two ranks. -/
inductive Rank where
  | sum
  | product
deriving DecidableEq, Repr

def Rank.operators : Rank → List BinaryOp
  | sum => [.add, .sub, .or]
  | product => [.mul, .div, .and, .xor, .shiftLeft, .shiftRight]

/-- The parts of an expression.  Operands with operators of the lower rank between them are an
expression, those with operators of the higher rank a term. -/
inductive Part where
  | operands (rank : Rank)
  /-- Operators with their right operands, behind the phrase `left`. -/
  | more (rank : Rank) (left : Phrase)
  | unary
  | factor

abbrev Part.expression : Part := .operands .sum

/-- What stands between operators of a rank. -/
def Rank.operand : Rank → Part
  | sum => .operands .product
  | product => .unary

/-- The lexemes that are a part of an expression, with the phrase that they are. -/
inductive Derives : Part → List (Lexeme Spelling) → Phrase → Prop where
  | constant (number : Int32) : Derives .factor [.constant number] (.constant number)
  | here : Derives .factor [.operator .star] .here
  | name (written : Spelling) : Derives .factor [.name written] (.name written)
  | parens {ts : List (Lexeme Spelling)} {p : Phrase} (inside : Derives .expression ts p) :
      Derives .factor (.leftParen :: (ts ++ [.rightParen])) p
  | unary {sign : Operator} {op : UnaryOp} {ts : List (Lexeme Spelling)} {p : Phrase}
      (written : sign ∈ op.signs) (operand : Derives .factor ts p) :
      Derives .unary (.operator sign :: ts) (.unary op p)
  | factor {ts : List (Lexeme Spelling)} {p : Phrase} (only : Derives .factor ts p) :
      Derives .unary ts p
  | operands {rank : Rank} {ts us : List (Lexeme Spelling)} {p q : Phrase}
      (first : Derives rank.operand ts p) (rest : Derives (.more rank p) us q) :
      Derives (.operands rank) (ts ++ us) q
  | stop {rank : Rank} {p : Phrase} : Derives (.more rank p) [] p
  | more {rank : Rank} {op : BinaryOp} {ts us : List (Lexeme Spelling)} {p q s : Phrase}
      (ranked : op ∈ rank.operators) (right : Derives rank.operand ts q)
      (rest : Derives (.more rank (.binary op p q)) us s) :
      Derives (.more rank p) (.operator op.sign :: (ts ++ us)) s

/-! ### Parts that cannot go on -/

/-- The operators that go on with operands of a rank: those of the rank, and those that the last
operand goes on with. -/
def Rank.pending : Rank → List BinaryOp
  | sum => Rank.sum.operators ++ Rank.product.operators
  | product => Rank.product.operators

def Part.pending : Part → List BinaryOp
  | operands rank | more rank _ => rank.pending
  | unary | factor => []

/-- No operator stands ahead that goes on with the part. -/
def Part.Stops (part : Part) (ahead : List (Lexeme Spelling)) : Prop :=
  ∀ op ∈ part.pending, ahead.head? ≠ some (.operator op.sign)

theorem BinaryOp.sign_inj {op op' : BinaryOp} (h : op.sign = op'.sign) : op = op' := by
  cases op <;> cases op' <;> first | rfl | cases h

theorem UnaryOp.eq_of_mem_signs {op op' : UnaryOp} {sign : Operator} (h : sign ∈ op.signs)
    (h' : sign ∈ op'.signs) : op = op' := by
  cases op <;> cases op' <;> simp_all [signs]

theorem Rank.mem_pending (op : BinaryOp) : op ∈ Rank.sum.pending := by
  cases op <;> decide

/-- The operators of a rank go on with no operand of the rank. -/
theorem Rank.not_mem_pending {rank : Rank} {op : BinaryOp} (h : op ∈ rank.operators) :
    op ∉ rank.operand.pending := by
  cases rank <;> cases op <;> revert h <;> decide

theorem Rank.pending_subset (rank : Rank) {op : BinaryOp} (h : op ∈ rank.operand.pending) :
    op ∈ rank.pending := by
  cases rank <;> cases op <;> revert h <;> decide

theorem Rank.operators_subset {rank : Rank} {op : BinaryOp} (h : op ∈ rank.operators) :
    op ∈ rank.pending := by
  cases rank <;> cases op <;> revert h <;> decide

namespace Derives

variable {rank : Rank} {part : Part} {ts us : List (Lexeme Spelling)} {p q : Phrase}

/-- What follows an operand is nothing, or an operator of the rank and more. -/
theorem head_of_more (h : Derives (.more rank p) ts q) :
    ts = [] ∨ ∃ op ∈ rank.operators, ts.head? = some (.operator op.sign) := by
  cases h with
  | stop => exact .inl rfl
  | more ranked _ _ => exact .inr ⟨_, ranked, rfl⟩

/-- An operand ends where the operators of its rank go on, or where all of them end. -/
theorem stops_operand (h : Derives (.more rank p) ts q) {ahead : List (Lexeme Spelling)}
    (hstops : (Part.operands rank).Stops ahead) : rank.operand.Stops (ts ++ ahead) := by
  intro op hop hhead
  obtain rfl | ⟨op', hop', hhead'⟩ := h.head_of_more
  · exact hstops op (Rank.pending_subset _ hop) hhead
  · rw [List.head?_append, hhead'] at hhead
    cases BinaryOp.sign_inj (Lexeme.operator.inj (Option.some.inj hhead))
    exact Rank.not_mem_pending hop' hop

theorem exists_cons_of_factor (h : Derives .factor ts p) : ∃ l more, ts = l :: more := by
  cases h <;> exact ⟨_, _, rfl⟩

/-- A factor does not begin like a unary operator. -/
theorem head_of_factor (h : Derives .factor ts p) {op : UnaryOp} {sign : Operator}
    (hsign : sign ∈ op.signs) (ahead : List (Lexeme Spelling)) :
    (ts ++ ahead).head? ≠ some (.operator sign) := by
  cases h with
  | here =>
    rintro ⟨⟩
    cases op <;> revert hsign <;> decide
  | constant | name | parens => rintro ⟨⟩

/-- Two parts of one kind at the same place, neither of which can go on, are the same. -/
theorem unique {ts' : List (Lexeme Spelling)} {p' : Phrase} {ahead ahead' : List (Lexeme Spelling)}
    (h : Derives part ts p) (h' : Derives part ts' p') (heq : ts ++ ahead = ts' ++ ahead')
    (hstops : part.Stops ahead) (hstops' : part.Stops ahead') : ts = ts' ∧ p = p' := by
  -- the first lexeme decides which rule the other derivation ends with
  induction h generalizing ts' p' ahead ahead' with
  | constant number =>
    cases h' with
    | constant => cases heq; exact ⟨rfl, rfl⟩
    | here | name | parens => cases heq
  | here =>
    cases h' with
    | here => exact ⟨rfl, rfl⟩
    | constant | name | parens => cases heq
  | name written =>
    cases h' with
    | name => cases heq; exact ⟨rfl, rfl⟩
    | constant | here | parens => cases heq
  | parens inside ih =>
    cases h' with
    | parens inside' =>
      simp only [List.cons_append, List.cons.injEq, true_and, List.append_assoc] at heq
      -- the parenthesis that follows ends both of the expressions inside
      obtain ⟨rfl, rfl⟩ := ih inside' heq nofun nofun
      exact ⟨rfl, rfl⟩
    | constant | here | name => cases heq
  | unary written operand ih =>
    cases h' with
    | unary written' operand' =>
      simp only [List.cons_append, List.cons.injEq, Lexeme.operator.injEq] at heq
      obtain ⟨rfl, heq⟩ := heq
      cases UnaryOp.eq_of_mem_signs written written'
      obtain ⟨rfl, rfl⟩ := ih operand' heq nofun nofun
      exact ⟨rfl, rfl⟩
    | factor only' =>
      -- the only sign that a factor begins with is `*`, which is no unary operator
      refine absurd ?_ (only'.head_of_factor written ahead')
      rw [← heq]
      rfl
  | factor only ih =>
    cases h' with
    | unary written' operand' =>
      refine absurd ?_ (only.head_of_factor written' ahead)
      rw [heq]
      rfl
    | factor only' => exact ih only' heq nofun nofun
  | operands first rest ihfirst ihrest =>
    cases h' with
    | operands first' rest' =>
      rw [List.append_assoc, List.append_assoc] at heq
      -- the first operands are the same, and so the rest starts at the same place
      obtain ⟨rfl, rfl⟩ := ihfirst first' heq (rest.stops_operand hstops)
        (rest'.stops_operand hstops')
      obtain ⟨rfl, rfl⟩ := ihrest rest' (List.append_cancel_left heq) hstops hstops'
      exact ⟨rfl, rfl⟩
  | stop =>
    cases h' with
    | stop => exact ⟨rfl, rfl⟩
    | more ranked' _ _ =>
      -- the other one goes on with an operator, and here nothing does
      refine absurd ?_ (hstops _ (Rank.operators_subset ranked'))
      rw [List.nil_append] at heq
      rw [heq]
      rfl
  | more ranked right rest ihright ihrest =>
    cases h' with
    | stop =>
      refine absurd ?_ (hstops' _ (Rank.operators_subset ranked))
      rw [List.nil_append] at heq
      rw [← heq]
      rfl
    | more ranked' right' rest' =>
      simp only [List.cons_append, List.cons.injEq, Lexeme.operator.injEq, List.append_assoc] at heq
      obtain ⟨hsign, heq⟩ := heq
      cases BinaryOp.sign_inj hsign
      obtain ⟨rfl, rfl⟩ := ihright right' heq (rest.stops_operand hstops)
        (rest'.stops_operand hstops')
      obtain ⟨rfl, rfl⟩ := ihrest rest' (List.append_cancel_left heq) hstops hstops'
      exact ⟨rfl, rfl⟩

end Derives

/-! ### What a phrase means -/

/-- The number that a name stands for, if it has a value. -/
def Scopes.numberOf (σ : Scopes) (name : String) : Int32 :=
  ((σ.resolve name).map Definition.value).getD 0

/-- Whether the value that a name stands for is a label. -/
def Scopes.isLabel (σ : Scopes) (name : String) : Bool :=
  (σ.resolve name).any fun d => d.kind = .label

namespace Phrase

/-- The names in a phrase. -/
def names : Phrase → List String
  | constant _ | here => []
  | name written => [written.text]
  | unary _ operand => operand.names
  | binary _ left right => left.names ++ right.names

/-- Every name in the phrase has a value. -/
def Defined (σ : Scopes) (p : Phrase) : Prop :=
  ∀ name ∈ p.names, ∃ d, σ.resolve name = some d

/-- Operands before their operators, the left operand first. -/
def postorder (σ : Scopes) (address : Int32) : Phrase → List StackItem
  | constant number => [.operand number]
  | here => [.operand address]
  | name written => [.operand (σ.numberOf written.text)]
  | unary op operand => operand.postorder σ address ++ [.operator op.sign]
  | binary op left right =>
    left.postorder σ address ++ right.postorder σ address ++ [.operator op.sign]

/-- The integer that a phrase stands for. -/
def denote (σ : Scopes) (address : Int32) : Phrase → Int
  | constant number => number.toInt
  | here => address.toInt
  | name written => (σ.numberOf written.text).toInt
  | unary op operand => op.denote (operand.denote σ address)
  | binary op left right => op.denote (left.denote σ address) (right.denote σ address)

/-- Whether the current address or a label occurs in a phrase. -/
def mentionsAddress (σ : Scopes) : Phrase → Bool
  | constant _ => false
  | here => true
  | name written => σ.isLabel written.text
  | unary _ operand => operand.mentionsAddress σ
  | binary _ left right => left.mentionsAddress σ || right.mentionsAddress σ

/-- The expression that a phrase is with its names looked up. -/
def expr (σ : Scopes) (address : Int32) : Phrase → Expr
  | constant number => .value number false
  | here => .value address true
  | name written => .value (σ.numberOf written.text) (σ.isLabel written.text)
  | unary op operand => .unary op (operand.expr σ address)
  | binary op left right => .binary op (left.expr σ address) (right.expr σ address)

variable {σ τ : Scopes} (address : Int32) (p : Phrase)

theorem items_expr : (p.expr σ address).items = p.postorder σ address := by
  induction p with
  | unary op operand ih => simp only [expr, Expr.items, postorder, ih]
  | binary op left right ihl ihr => simp only [expr, Expr.items, postorder, ihl, ihr]
  | _ => rfl

theorem denote_expr : (p.expr σ address).denote = p.denote σ address := by
  induction p with
  | unary op operand ih => simp only [expr, Expr.denote, denote, ih]
  | binary op left right ihl ihr => simp only [expr, Expr.denote, denote, ihl, ihr]
  | _ => rfl

theorem mentionsAddress_expr : (p.expr σ address).mentionsAddress = p.mentionsAddress σ := by
  induction p with
  | unary op operand ih => exact ih
  | binary op left right ihl ihr =>
    simp only [expr, Expr.mentionsAddress, mentionsAddress, ihl, ihr]
  | _ => rfl

/-- What a phrase means depends on what its names resolve to, and on nothing else of the scopes. -/
theorem expr_congr (h : ∀ name, τ.resolve name = σ.resolve name) :
    p.expr τ address = p.expr σ address := by
  induction p with
  | name written => simp only [expr, Scopes.numberOf, Scopes.isLabel, h]
  | unary op operand ih => simp only [expr, ih]
  | binary op left right ihl ihr => simp only [expr, ihl, ihr]
  | _ => rfl

theorem defined_congr (h : ∀ name, τ.resolve name = σ.resolve name) :
    p.Defined τ ↔ p.Defined σ := by
  simp only [Defined, h]

theorem defined_binary {op : BinaryOp} {left right : Phrase} :
    (binary op left right).Defined σ ↔ left.Defined σ ∧ right.Defined σ := by
  simp only [Defined, names, List.mem_append, or_imp, forall_and]

end Phrase

/-- What an operand stands in has its names. -/
theorem Derives.defined_of_more {rank : Rank} {ts : List (Lexeme Spelling)} {p q : Phrase}
    {σ : Scopes} (h : Derives (.more rank p) ts q) (hq : q.Defined σ) : p.Defined σ := by
  generalize hpart : Part.more rank p = part at h
  induction h generalizing p with
  | stop =>
    cases hpart
    exact hq
  | more ranked right rest ihright ihrest =>
    cases hpart
    exact (Phrase.defined_binary.mp (ihrest hq rfl)).1
  | _ => cases hpart

end Assembler6502
