/-
A statement is read from its line alone.

The grammar is in step with itself on one line in two frames: whatever lines
follow, the same statement is read, or the same error arises, and nothing is
read behind the line.

* **`Expr.parse_steady`** — expressions;
* **`Statement.parseFrom_inStep`** — statements, behind their first token;
* **`Statement.parse_inStep`** — statements;
* **`Frame.Leads`**, **`Frame.Stays`** — where a reading is behind a statement, and behind an
  error.
-/
import Assembler6502.Proofs.Statement.InStep
import Assembler6502.Proofs.Statement.Inversion

namespace Assembler6502

open Assembler6502.Parser

variable {f g : Frame} {n : Nat} {r s : Reading}

/-! ### Expressions -/

namespace Expr

variable {context : Context} {nested nested' : Parser Expr}

theorem ofName_steady (pass : Pass) (name : Name) :
    Steady f g n (ofName pass name) (ofName pass name) := by
  unfold ofName Steady
  split
  · exact .same fun _ _ h => h
  · exact .same fun _ _ h => h
  · refine .bind_same .scopes fun scopes => ?_
    split
    · exact .same fun _ _ h => h
    · exact .fail fun _ _ h => h.halted

theorem factor_steady (hnested : ∀ m < n, Steady f g m nested nested') :
    Steady f g n (factor context nested) (factor context nested') := by
  refine .next (fun l p q hl _ m hm => ?_) fun l l' p q hl hl' => ?_
  · have hback : ∀ r s, OnLine f g m r s → OnLine f g n r s :=
      fun r s h => h.mono (Nat.le_of_lt hm)
    cases l with
    | constant v => exact .same hback
    | operator op =>
      cases op with
      | star => exact .same hback
      | _ => exact .fail fun _ _ h => h.halted
    | name name => exact (ofName_steady _ name).imp fun _ _ r s h =>
        ⟨h.1, hback r s h.2⟩
    | leftParen =>
      -- a parenthesis takes a byte, so the expression behind it has fewer to read
      refine .bind_same (hnested m hm) fun e => .next (fun l p q hl _ k hk => ?_) ?_
      · refine .ite (fun _ => .same fun r s h => ?_) fun _ => .fail fun _ _ h => h.halted
        exact h.mono (by omega)
      · intro l l' p q hl hl'
        dsimp only
        rw [if_neg (Lexeme.ne_of_isEnding hl rfl), if_neg (Lexeme.ne_of_isEnding hl' rfl)]
        exact .fail fun _ _ h => h.halted
    | _ => exact .fail fun _ _ h => h.halted
  · rcases Lexeme.eq_of_isEnding hl with rfl | rfl <;>
      rcases Lexeme.eq_of_isEnding hl' with rfl | rfl <;>
      exact .fail fun _ _ h => h.halted

/-- An operator of a kind is ahead of both readings, or of neither. -/
theorem peekOperator_inStep {α β : Type} {kind : Operator → Option β} {h k : Option β → Parser α}
    {Q : α → α → Reading → Reading → Prop}
    (hsome : ∀ op, InStep f g (TokenAhead f g n) (h (some op)) (k (some op)) Q)
    (hnone : InStep f g (OnLine f g n) (h none) (k none) Q) :
    InStep f g (OnLine f g n) (peekOperator kind >>= h) (peekOperator kind >>= k) Q := by
  have hpeek : InStep f g (OnLine f g n) (peekOperator kind) (peekOperator kind) fun a b r s =>
      (∃ op, a = some op ∧ b = some op ∧ TokenAhead f g n r s) ∨
        (a = none ∧ b = none ∧ OnLine f g n r s) := by
    refine .peek (fun l p q _ => .pure fun r s hahead => ?_) ?_
    · cases hop : l.operator?.bind kind with
      | some op => exact .inl ⟨op, rfl, rfl, hahead⟩
      | none => exact .inr ⟨rfl, rfl, hahead.onLine⟩
    · intro l l' p q hl hl'
      refine .pure fun r s hend => .inr ⟨?_, ?_, hend.onLine⟩
      · rcases Lexeme.eq_of_isEnding hl with rfl | rfl <;> rfl
      · rcases Lexeme.eq_of_isEnding hl' with rfl | rfl <;> rfl
  refine .bind hpeek ?_
  rintro a b r s (⟨op, rfl, rfl, hahead⟩ | ⟨rfl, rfl, honLine⟩)
  · exact hsome op hahead
  · exact hnone honLine

theorem unaryFactor_steady (hnested : ∀ m < n, Steady f g m nested nested') :
    Steady f g n (unaryFactor context nested) (unaryFactor context nested') := by
  refine peekOperator_inStep (fun op => .word fun l p q _ _ m hm => ?_) (factor_steady hnested)
  refine .bind_same (factor_steady fun k hk => hnested k (by omega)) fun e => .same fun r s h => ?_
  exact h.mono (Nat.le_of_lt hm)

section

variable {kind : Operator → Option BinaryOp} {operand operand' : Parser Expr}

/-- Where the line ends, so does a chain. -/
theorem chain_of_blank {c : Cursor} (hfresh : c.fresh = false) (hblank : c.skipBlanks.rest = [])
    (hr : r.cursor = c.within f) (a : Nat) (e : Expr) :
    chain kind operand a e r = .ok e r := by
  cases a with
  | zero => rfl
  | succ a =>
    have hpeek : peekOperator kind r = .ok none r := by
      have hoperator : (f.ending : Lexeme Name).operator?.bind kind = none := by
        unfold Frame.ending
        split <;> rfl
      show EStateM.bind Parser.peek _ r = _
      unfold EStateM.bind
      rw [peek_of_blank hfresh hblank hr]
      show EStateM.Result.ok _ r = _
      rw [hoperator]
    show EStateM.bind (peekOperator kind) _ r = _
    unfold EStateM.bind
    rw [hpeek]
    rfl

theorem chain_steady_zero (a b : Nat) (e : Expr) :
    Steady f g 0 (chain kind operand a e) (chain kind operand' b e) := by
  rintro r s ⟨hscopes, c, hfresh, hline, hn, -, hr, hs⟩
  have hrest : c.rest = [] := List.length_eq_zero_iff.mp (by omega)
  have hblank := Cursor.skipBlanks_rest_of_nil hrest
  rw [chain_of_blank hfresh hblank hr, chain_of_blank hfresh hblank hs]
  exact .ok ⟨rfl, hscopes, c, hfresh, hline, hn, trivial, hr, hs⟩

/-- Two bounds that are above what is left of the line cut off nothing. -/
theorem chain_steady {a b : Nat} (ha : n ≤ a) (hb : n ≤ b) (e : Expr)
    (hoperand : ∀ m ≤ n, Steady f g m operand operand') :
    Steady f g n (chain kind operand a e) (chain kind operand' b e) := by
  -- every turn takes a byte of the line, so `n` stays below both bounds
  induction a generalizing b n e with
  | zero =>
    obtain rfl : n = 0 := by omega
    exact chain_steady_zero 0 b e
  | succ a ih =>
    cases b with
    | zero =>
      obtain rfl : n = 0 := by omega
      exact chain_steady_zero (a + 1) 0 e
    | succ b =>
      refine peekOperator_inStep (fun op => .word fun l p q _ _ m hm => ?_) (.same fun _ _ h => h)
      refine .bind_same (hoperand m (by omega)) fun right => ?_
      have hturn := ih (n := m) (b := b) (by omega) (by omega) (.binary op e right)
        fun k hk => hoperand k (by omega)
      exact hturn.imp fun _ _ r s h => ⟨h.1, h.2.mono (by omega)⟩

theorem operands_steady (hoperand : ∀ m ≤ n, Steady f g m operand operand') :
    Steady f g n (operands kind operand) (operands kind operand') := by
  refine .bind_same (hoperand n (Nat.le_refl n)) fun left => .remaining fun m a b hm ha hb => ?_
  have hchain : Steady f g m (chain kind operand a left) (chain kind operand' b left) :=
    chain_steady ha hb left fun k hk => hoperand k (Nat.le_trans hk hm)
  exact hchain.imp fun _ _ r s h => ⟨h.1, h.2.mono hm⟩

end

theorem expression_steady {a b : Nat} (ha : n < a) (hb : n < b) :
    Steady f g n (expression context a) (expression context b) := by
  induction a generalizing b n with
  | zero => omega
  | succ a ih =>
    cases b with
    | zero => omega
    | succ b =>
      refine operands_steady fun m hm => operands_steady fun k hk => unaryFactor_steady ?_
      exact fun i hi => ih (by omega) (by omega)

theorem parse_steady : Steady f g n (parse context) (parse context) := by
  refine .remaining fun m a b hm ha hb => ?_
  have hexpression : Steady f g m (expression context (a + 1)) (expression context (b + 1)) :=
    expression_steady (by omega) (by omega)
  exact hexpression.imp fun _ _ r s h => ⟨h.1, h.2.mono hm⟩

end Expr

theorem Value.parse_steady {context : Context} :
    Steady f g n (Value.parse context) (Value.parse context) :=
  .bind_same Expr.parse_steady fun _ => .lift fun _ _ h => h.halted

/-! ### Statements -/

namespace Statement

variable {context : Context}

theorem checkWidth_inStep {P : Reading → Reading → Prop} {fits : Bool} {error : StatementError}
    (h : ∀ r s, P r s → Halted f g r s) :
    InStep f g P (checkWidth context fits error) (checkWidth context fits error) (Same P) := by
  unfold checkWidth
  exact .ite (fun _ => .fail h) fun _ => .same fun _ _ hP => hP

theorem expect_inStep {l : Lexeme Name} {what : String} (hl : l.isEnding = false) :
    InStep f g (OnLine f g n) (expect l what) (expect l what) (Same (OnLine f g n)) := by
  refine .next (fun l' p q _ _ m hm => ?_) fun l' l'' p q hl' hl'' => ?_
  · refine .ite (fun _ => .fail fun _ _ h => h.halted) fun _ => .same fun _ _ h => ?_
    exact h.mono (Nat.le_of_lt hm)
  · dsimp only
    rw [if_pos (Lexeme.ne_of_isEnding hl' hl), if_pos (Lexeme.ne_of_isEnding hl'' hl)]
    exact .fail fun _ _ h => h.halted

/-- What stands at the end of the line is read if it is a line end. -/
theorem ended_of_blank {c : Cursor} (hfresh : c.fresh = false) (hline : Byte.OneLine c.rest)
    (hblank : c.skipBlanks.rest = []) (hr : r.cursor = c.within f) :
    ∃ r', skipLineEnd r = .ok () r' ∧ endOfStatement r = .ok () r' ∧ r'.scopes = r.scopes ∧
      f.Ended r'.cursor := by
  have hpeek := peek_of_blank hfresh hblank hr
  have hnext := next_of_blank hfresh hblank hr
  have hover := f.ended_beyond hfresh hblank
  unfold skipLineEnd endOfStatement
  simp only [bind, EStateM.bind, hpeek]
  unfold Frame.ending at *
  by_cases hbehind : f.behind = []
  · refine ⟨r, ?_, ?_, rfl, .inr ⟨hbehind, c, hfresh, hline, hblank, hr⟩⟩ <;> simp [hbehind] <;> rfl
  · rw [if_neg hbehind] at hnext
    refine ⟨{ r with cursor := f.beyond c.skipBlanks }, ?_, ?_, rfl, hover⟩ <;>
      simp [hbehind, EStateM.bind, hnext] <;> rfl

theorem endOfStatement_inStep :
    InStep f g (OnLine f g n) endOfStatement endOfStatement (Same (Ended f g)) := by
  intro r s honLine
  rcases honLine.cases with hahead | ⟨hscopes, c, hfresh, hline, -, hblank, hr, hs⟩
  · refine InStep.look (fun l p q hl => ?_) hahead
    cases l with
    | lineEnd | endOfInput => cases hl
    | _ => exact .fail fun _ _ h => h.halted
  · obtain ⟨r', -, hleft, hscopes', hended⟩ := ended_of_blank hfresh hline hblank hr
    obtain ⟨s', -, hright, hscopes'', hended'⟩ := ended_of_blank hfresh hline hblank hs
    rw [hleft, hright]
    exact .ok ⟨rfl, by rw [hscopes', hscopes'', hscopes], hended, hended'⟩

theorem skipLineEnd_inStep :
    InStep f g (OnLine f g n) skipLineEnd skipLineEnd
      (Same fun r s => TokenAhead f g n r s ∨ Ended f g r s) := by
  intro r s honLine
  rcases honLine.cases with hahead | ⟨hscopes, c, hfresh, hline, -, hblank, hr, hs⟩
  · refine InStep.look (fun l p q hl => .ite (fun hend => ?_) fun _ => ?_) hahead
    · cases hend
      cases hl
    · exact .same fun _ _ h => .inl h
  · obtain ⟨r', hleft, -, hscopes', hended⟩ := ended_of_blank hfresh hline hblank hr
    obtain ⟨s', hright, -, hscopes'', hended'⟩ := ended_of_blank hfresh hline hblank hs
    rw [hleft, hright]
    exact .ok ⟨rfl, .inr ⟨by rw [hscopes', hscopes'', hscopes], hended, hended'⟩⟩

theorem reference_steady {resolve : List Int32 → Int32 → Option Int32} {error : StatementError} :
    Steady f g n (reference context resolve error) (reference context resolve error) := by
  unfold reference
  split
  · exact .same fun _ _ h => h
  · split
    · exact .same fun _ _ h => h
    · exact .fail fun _ _ h => h.halted

/-- What stands where an operand is due: a value or a token, the same in both readings, or the end
of the line. -/
inductive OperandAt (f g : Frame) (n : Nat) :
    Value ⊕ Lexeme Name → Value ⊕ Lexeme Name → Reading → Reading → Prop where
  | value {v : Value} {r s : Reading} (h : OnLine f g n r s) : OperandAt f g n (.inl v) (.inl v) r s
  | word {l : Lexeme Name} {r s : Reading} (hl : l.isEnding = false) (h : OnLine f g n r s) :
      OperandAt f g n (.inr l) (.inr l) r s
  | ending {l l' : Lexeme Name} {r s : Reading} (hl : l.isEnding = true) (hl' : l'.isEnding = true)
      (h : Ended f g r s) : OperandAt f g n (.inr l) (.inr l') r s

theorem operand_at_value {p : Parser Value} {m : Nat} (hm : m ≤ n) (hp : Steady f g m p p) :
    InStep f g (OnLine f g m) (p >>= fun v => pure (.inl v)) (p >>= fun v => pure (.inl v))
      (OperandAt f g n) :=
  .bind_same hp fun _ => .pure fun _ _ h => .value (h.mono hm)

theorem operand_at :
    InStep f g (OnLine f g n) (operand context) (operand context) (OperandAt f g n) := by
  refine .peek (fun l p q hl => .ite (fun _ => ?_) fun _ => ?_) fun l l' p q hl hl' => ?_
  · exact (operand_at_value (Nat.le_refl n) Value.parse_steady).standing
  · refine .word fun l p q hl _ m hm => ?_
    cases l with
    | forward | backward => exact operand_at_value (Nat.le_of_lt hm) reference_steady
    | _ => exact .pure fun r s h => .word hl (h.mono (Nat.le_of_lt hm))
  · have hnot : ∀ {l : Lexeme Name}, l.isEnding = true → ¬ l.startsExpression = true := by
      intro l hl
      rcases Lexeme.eq_of_isEnding hl with rfl | rfl <;> decide
    dsimp only
    rw [if_neg (hnot hl), if_neg (hnot hl')]
    refine .bind .next_atEnd ?_
    rintro ⟨l, p⟩ ⟨l', q⟩ r s ⟨⟨hl, hl'⟩, hended⟩
    rcases Lexeme.eq_of_isEnding hl with rfl | rfl <;>
      rcases Lexeme.eq_of_isEnding hl' with rfl | rfl <;>
      exact .ok (.ending rfl rfl hended)

/-- Goes on behind an operand, or behind what stands in its place. -/
theorem operand_inStep {α : Type} {Q : α → α → Reading → Reading → Prop}
    {h k : Value ⊕ Lexeme Name → Parser α}
    (hvalue : ∀ v, InStep f g (OnLine f g n) (h (.inl v)) (k (.inl v)) Q)
    (hword : ∀ l, l.isEnding = false → InStep f g (OnLine f g n) (h (.inr l)) (k (.inr l)) Q)
    (hend : ∀ l l', l.isEnding = true → l'.isEnding = true →
      InStep f g (Ended f g) (h (.inr l)) (k (.inr l')) Q) :
    InStep f g (OnLine f g n) (operand context >>= h) (operand context >>= k) Q := by
  refine .bind operand_at fun a b r s hat => ?_
  cases hat with
  | value honLine => exact hvalue _ honLine
  | word hl honLine => exact hword _ hl honLine
  | ending hl hl' hended => exact hend _ _ hl hl' hended

theorem expectValue_steady {what : String} :
    Steady f g n (expectValue context what) (expectValue context what) :=
  operand_inStep (fun _ => .same fun _ _ h => h) (fun _ _ => .fail fun _ _ h => h.halted)
    fun _ _ _ _ => .fail fun _ _ h => h.halted

theorem parseOrigin_inStep :
    InStep f g (OnLine f g n) (parseOrigin context) (parseOrigin context) (Same (Ended f g)) := by
  refine .bind_same expectValue_steady fun value => ?_
  refine .bind_same (checkWidth_inStep fun _ _ h => h.halted) fun _ => ?_
  exact .bind_same endOfStatement_inStep fun _ => .same fun _ _ h => h

theorem parseInclude_inStep :
    InStep f g (OnLine f g n) parseInclude parseInclude (Same (Ended f g)) := by
  refine .next (fun l p q _ _ m _ => ?_) fun l l' p q hl hl' => ?_
  · cases l with
    | quoted text => exact .bind_same endOfStatement_inStep fun _ => .same fun _ _ h => h
    | _ => exact .fail fun _ _ h => h.halted
  · rcases Lexeme.eq_of_isEnding hl with rfl | rfl <;>
      rcases Lexeme.eq_of_isEnding hl' with rfl | rfl <;>
      exact .fail fun _ _ h => h.halted

theorem parseOpenScope_inStep :
    InStep f g (OnLine f g n) parseOpenScope parseOpenScope (Same (Ended f g)) := by
  refine .next (fun l p q _ _ m _ => ?_) fun l l' p q hl hl' => ?_
  · cases l with
    | name name => exact .bind_same endOfStatement_inStep fun _ => .same fun _ _ h => h
    | _ => exact .fail fun _ _ h => h.halted
  · rcases Lexeme.eq_of_isEnding hl with rfl | rfl <;>
      rcases Lexeme.eq_of_isEnding hl' with rfl | rfl <;>
      exact .fail fun _ _ h => h.halted

theorem sequenceValue_steady :
    Steady f g n (sequenceValue context) (sequenceValue context) := by
  have hvalue : Steady f g n (do return (← expectValue context "constant").number)
      (do return (← expectValue context "constant").number) :=
    .bind_same expectValue_steady fun _ => .same fun _ _ h => h
  refine .peek (fun l p q hl => .ite (fun _ => ?_) fun _ => ?_) fun l l' p q hl hl' => ?_
  · refine .bind_same Value.parse_steady.standing fun _ => ?_
    exact .same fun _ _ h => h
  · exact hvalue.standing
  · dsimp only
    rw [if_neg (Lexeme.ne_of_isEnding hl rfl), if_neg (Lexeme.ne_of_isEnding hl' rfl)]
    exact hvalue.standing

theorem byteElement_steady : Steady f g n (byteElement context) (byteElement context) := by
  have hnumber : Steady f g n
      (do
        let value ← sequenceValue context
        checkWidth context (fitsByte value) .numberTooLarge
        return [Instruction.lowByte value])
      (do
        let value ← sequenceValue context
        checkWidth context (fitsByte value) .numberTooLarge
        return [Instruction.lowByte value]) := by
    refine .bind_same sequenceValue_steady fun _ => ?_
    refine .bind_same (checkWidth_inStep fun _ _ h => h.halted) fun _ => .same fun _ _ h => h
  refine .peek (fun l p q hl => ?_) fun l l' p q hl hl' => ?_
  · cases l with
    | quoted text => exact .word fun _ _ _ _ _ m hm => .same fun _ _ h => h.mono (Nat.le_of_lt hm)
    | _ => exact hnumber.standing
  · rcases Lexeme.eq_of_isEnding hl with rfl | rfl <;>
      rcases Lexeme.eq_of_isEnding hl' with rfl | rfl <;>
      exact hnumber.standing

theorem wordElement_steady : Steady f g n (wordElement context) (wordElement context) := by
  refine .bind_same sequenceValue_steady fun _ => ?_
  exact .bind_same (checkWidth_inStep fun _ _ h => h.halted) fun _ => .same fun _ _ h => h

/-- Behind an element, a comma takes a byte of the line, and everything else ends it. -/
theorem moreInSequence_inStep {α : Type} {Q : α → α → Reading → Reading → Prop}
    {h k : Bool → Parser α} (hmore : ∀ m < n, InStep f g (OnLine f g m) (h true) (k true) Q)
    (hdone : InStep f g (Ended f g) (h false) (k false) Q) :
    InStep f g (OnLine f g n) (moreInSequence >>= h) (moreInSequence >>= k) Q := by
  have hnext : InStep f g (OnLine f g n) moreInSequence moreInSequence fun a b r s =>
      (a = true ∧ b = true ∧ ∃ m < n, OnLine f g m r s) ∨
        (a = false ∧ b = false ∧ Ended f g r s) := by
    refine .next (fun l p q hl _ m hm => ?_) fun l l' p q hl hl' => ?_
    · cases l with
      | comma => exact .pure fun r s h => .inl ⟨rfl, rfl, m, hm, h⟩
      | lineEnd | endOfInput => cases hl
      | _ => exact .fail fun _ _ h => h.halted
    · rcases Lexeme.eq_of_isEnding hl with rfl | rfl <;>
        rcases Lexeme.eq_of_isEnding hl' with rfl | rfl <;>
        exact .pure fun r s h => .inr ⟨rfl, rfl, h⟩
  refine .bind hnext ?_
  rintro a b r s (⟨rfl, rfl, m, hm, honLine⟩ | ⟨rfl, rfl, hended⟩)
  · exact hmore m hm honLine
  · exact hdone hended

theorem sequenceOf_inStep {α : Type} {element : Parser (List α)} {a b : Nat}
    (helement : ∀ m ≤ n, Steady f g m element element) (ha : n < a) (hb : n < b) :
    InStep f g (OnLine f g n) (sequenceOf element a) (sequenceOf element b) (Same (Ended f g)) := by
  induction a generalizing b n with
  | zero => omega
  | succ a ih =>
    cases b with
    | zero => omega
    | succ b =>
      refine .bind_same (helement n (Nat.le_refl n)) fun first => ?_
      refine moreInSequence_inStep (fun m hm => ?_) (.same fun _ _ h => h)
      refine .bind_same (ih (fun k hk => helement k (by omega)) (by omega) (by omega)) fun _ => ?_
      exact .same fun _ _ h => h

theorem sequence_inStep {α : Type} {element : Parser (List α)}
    (helement : ∀ m, Steady f g m element element) :
    InStep f g (OnLine f g n) (sequence element) (sequence element) (Same (Ended f g)) :=
  .remaining fun _ _ _ _ ha hb =>
    sequenceOf_inStep (fun k _ => helement k) (by omega) (by omega)

/-- Behind a statement both readings are at the end of the line; only a label leaves other tokens
of its line to be read, and a token that begins no statement leaves what follows it. -/
def Behind (f g : Frame) (n : Nat) (a b : Statement) (r s : Reading) : Prop :=
  a = b ∧ ((a = .undefined ∧ OnLine f g n r s) ∨ TokenAhead f g n r s ∨ Ended f g r s)

theorem Behind.of_ended {a b : Statement} (h : Same (Ended f g) a b r s) : Behind f g n a b r s :=
  ⟨h.1, .inr (.inr h.2)⟩

theorem parseNamed_inStep (name : Name) (column : Nat) :
    InStep f g (OnLine f g n) (parseNamed context name column) (parseNamed context name column)
      (Behind f g n) := by
  have hlabel : InStep f g (OnLine f g n)
      (if name.symbol.kind ≠ .label ∧ column ≠ 1 then Parser.fail .labelNotInFirstColumn
        else do skipLineEnd; return .label name.text)
      (if name.symbol.kind ≠ .label ∧ column ≠ 1 then Parser.fail .labelNotInFirstColumn
        else do skipLineEnd; return .label name.text) (Behind f g n) := by
    refine .ite (fun _ => .fail fun _ _ h => h.halted) fun _ => ?_
    exact .bind_same skipLineEnd_inStep fun _ => .pure fun r s h => ⟨rfl, .inr h⟩
  refine .peek (fun l p q hl => .ite (fun _ => ?_) fun _ => ?_) fun l l' p q hl hl' => ?_
  · refine .ite (fun _ => .fail fun _ _ h => h.halted) fun _ => .word fun _ _ _ _ _ m _ => ?_
    refine .bind_same expectValue_steady fun value => ?_
    refine .bind_same (checkWidth_inStep fun _ _ h => h.halted) fun _ => ?_
    exact .bind_same endOfStatement_inStep fun _ => .pure fun r s h => .of_ended ⟨rfl, h⟩
  · exact hlabel.standing
  · dsimp only
    rw [if_neg (Lexeme.ne_of_isEnding hl rfl), if_neg (Lexeme.ne_of_isEnding hl' rfl)]
    exact hlabel.standing

/-! ### Instructions -/

theorem directOperand_inStep (m : Mnemonic) (v : Int32) :
    InStep f g (OnLine f g n) (directOperand context m v) (directOperand context m v)
      (Same (Ended f g)) := by
  refine .bind_same (checkWidth_inStep fun _ _ h => h.halted) fun _ => ?_
  refine .next (fun l p q hl _ k _ => ?_) fun l l' p q hl hl' => ?_
  · cases l with
    | comma =>
      refine .next (fun l p q _ _ k _ => ?_) fun l l' p q hl hl' => ?_
      · cases l with
        | register reg =>
          cases reg with
          | x | y => exact .bind_same endOfStatement_inStep fun _ => .same fun _ _ h => h
          | _ => exact .fail fun _ _ h => h.halted
        | _ => exact .fail fun _ _ h => h.halted
      · rcases Lexeme.eq_of_isEnding hl with rfl | rfl <;>
          rcases Lexeme.eq_of_isEnding hl' with rfl | rfl <;>
          exact .fail fun _ _ h => h.halted
    | lineEnd | endOfInput => cases hl
    | _ => exact .fail fun _ _ h => h.halted
  · rcases Lexeme.eq_of_isEnding hl with rfl | rfl <;>
      rcases Lexeme.eq_of_isEnding hl' with rfl | rfl <;>
      exact .same fun _ _ h => h

theorem indirectMode_steady : Steady f g n indirectMode indirectMode := by
  refine .next (fun l p q hl _ m hm => ?_) fun l l' p q hl hl' => ?_
  · have hback : ∀ r s, OnLine f g m r s → OnLine f g n r s :=
      fun r s h => h.mono (Nat.le_of_lt hm)
    cases l with
    | comma =>
      refine .bind_same (expect_inStep rfl) fun _ => ?_
      exact .bind_same (expect_inStep rfl) fun _ => .same hback
    | rightParen =>
      refine .peek (fun l p q _ => .ite (fun _ => ?_) fun _ => ?_) fun l l' p q hl hl' => ?_
      · refine .word fun _ _ _ _ _ k hk => ?_
        exact .bind_same (expect_inStep rfl) fun _ => .same fun r s h => h.mono (by omega)
      · exact .same fun r s h => hback r s h.onLine
      · dsimp only
        rw [if_neg (Lexeme.ne_of_isEnding hl rfl), if_neg (Lexeme.ne_of_isEnding hl' rfl)]
        exact .same fun r s h => hback r s h.onLine
    | _ => exact .fail fun _ _ h => h.halted
  · rcases Lexeme.eq_of_isEnding hl with rfl | rfl <;>
      rcases Lexeme.eq_of_isEnding hl' with rfl | rfl <;>
      exact .fail fun _ _ h => h.halted

theorem indirectOperand_inStep :
    InStep f g (OnLine f g n) (indirectOperand context) (indirectOperand context)
      (Same (Ended f g)) := by
  refine .bind_same expectValue_steady fun value => ?_
  refine .bind_same (checkWidth_inStep fun _ _ h => h.halted) fun _ => ?_
  refine .bind_same indirectMode_steady fun mode => ?_
  refine .bind_same endOfStatement_inStep fun _ => ?_
  refine .ite (fun _ => ?_) fun _ => .same fun _ _ h => h
  exact .bind_same (checkWidth_inStep fun _ _ h => h.halted) fun _ => .same fun _ _ h => h

theorem immediateOperand_inStep :
    InStep f g (OnLine f g n) (immediateOperand context) (immediateOperand context)
      (Same (Ended f g)) := by
  refine .bind_same expectValue_steady fun value => ?_
  refine .bind_same (checkWidth_inStep fun _ _ h => h.halted) fun _ => ?_
  exact .bind_same endOfStatement_inStep fun _ => .same fun _ _ h => h

theorem parseOperand_inStep (m : Mnemonic) :
    InStep f g (OnLine f g n) (parseOperand context m) (parseOperand context m)
      (Same (Ended f g)) := by
  refine operand_inStep (fun v => directOperand_inStep m v.number) (fun l hl => ?_)
    fun l l' hl hl' => ?_
  · cases l with
    | lineEnd | endOfInput => cases hl
    | register reg =>
      cases reg with
      | a => exact .bind_same endOfStatement_inStep fun _ => .same fun _ _ h => h
      | _ => exact .fail fun _ _ h => h.halted
    | operator op =>
      cases op with
      | hash => exact immediateOperand_inStep
      | _ => exact .fail fun _ _ h => h.halted
    | leftParen => exact indirectOperand_inStep
    | _ => exact .fail fun _ _ h => h.halted
  · rcases Lexeme.eq_of_isEnding hl with rfl | rfl <;>
      rcases Lexeme.eq_of_isEnding hl' with rfl | rfl <;>
      exact .same fun _ _ h => h

/-! ### Statements behind their first token -/

/-- Behind the same first token, both readings give the same statement. -/
theorem parseFrom_inStep {t u : Token Name} (h : SameToken t u) :
    InStep f g (OnLine f g n) (parseFrom context t) (parseFrom context u) (Behind f g n) := by
  obtain ⟨l, p⟩ := t
  obtain ⟨l', q⟩ := u
  obtain ⟨hl, rfl, hcolumn⟩ := h
  dsimp only at hl hcolumn
  -- all but labels and tokens that begin no statement are read up to the end of the line
  have hended : ∀ {p : Parser Statement}, InStep f g (OnLine f g n) p p (Same (Ended f g)) →
      InStep f g (OnLine f g n) p p (Behind f g n) := by
    intro p hp
    exact hp.imp fun _ _ _ _ h => .of_ended h
  unfold parseFrom
  cases l with
  | mnemonic m =>
    exact hended (.bind_same (parseOperand_inStep m) fun _ => .same fun _ _ h => h)
  | endOfInput | lineEnd => cases hl
  | directive d =>
    cases d with
    | origin => exact hended parseOrigin_inStep
    | includeFile => exact hended parseInclude_inStep
    | bytes =>
      exact hended (.bind_same (sequence_inStep fun _ => byteElement_steady) fun _ =>
        .same fun _ _ h => h)
    | words =>
      exact hended (.bind_same (sequence_inStep fun _ => wordElement_steady) fun _ =>
        .same fun _ _ h => h)
    | openScope => exact hended parseOpenScope_inStep
    | closeScope => exact hended (.bind_same endOfStatement_inStep fun _ => .same fun _ _ h => h)
  | operator op =>
    cases op with
    | star => exact hended (.bind_same (expect_inStep rfl) fun _ => parseOrigin_inStep)
    | _ => exact .pure fun r s h => ⟨rfl, .inl ⟨rfl, h⟩⟩
  | anonymous =>
    exact .bind_same skipLineEnd_inStep fun _ => .pure fun r s h => ⟨rfl, .inr h⟩
  | name name =>
    dsimp only
    rw [hcolumn]
    exact parseNamed_inStep name q.column
  | _ => exact .pure fun r s h => ⟨rfl, .inl ⟨rfl, h⟩⟩

/-! ### Statements -/

theorem parseFrom_ne_endOfInput {t : Token Name} (h : t.lexeme.isEnding = false) {a : Statement}
    {r r' : Reading} (hparse : parseFrom context t r = .ok a r') : a ≠ .endOfInput := by
  rintro rfl
  have hbegins := parseFrom_begins hparse
  generalize t.lexeme = l at h hbegins
  cases hbegins
  cases h

/-- The first token of a statement is the same in both readings, and so is the statement. -/
theorem parse_inStep :
    InStep f g (Opening f g n) (parse context) (parse context) fun a b r s =>
      a ≠ .endOfInput ∧ Behind f g n a b r s := by
  have hfirst : InStep f g (Opening f g n) firstToken firstToken fun t u r s =>
      SameToken t u ∧ OnLine f g n r s := by
    refine .bind .next_opening ?_
    rintro t u r s ⟨htoken, m, hm, honLine⟩
    have hleft : t.lexeme ≠ .lineEnd := by
      intro hl
      have hword := htoken.isEnding
      rw [hl] at hword
      cases hword
    rw [if_neg hleft, if_neg (htoken.lexeme ▸ hleft)]
    exact .ok ⟨htoken, honLine.mono (Nat.le_of_lt hm)⟩
  refine .bind hfirst fun t u => .intro fun htoken => ?_
  exact (parseFrom_inStep htoken).and_left fun _ _ _ h => parseFrom_ne_endOfInput htoken.isEnding h

end Statement

/-! ### Behind the line -/

/-- Where the next statement begins: on the line, or behind it. -/
inductive Frame.Leads (f : Frame) (c : Cursor) : Prop where
  | onLine {d : Cursor} (fresh : d.fresh = false) (line : Byte.OneLine d.rest)
      (solid : d.skipBlanks.rest ≠ []) (cursor : c = d.within f)
  | cleared (h : f.Cleared c)

/-- The cursor is on the line or at its end. -/
def Frame.Stays (f : Frame) (c : Cursor) : Prop :=
  (∃ d : Cursor, d.fresh = false ∧ Byte.OneLine d.rest ∧ c = d.within f) ∨ f.Ended c

namespace Frame

variable {c : Cursor}

theorem Ended.cleared (h : f.Ended c) : f.Cleared c := by
  rcases h with ⟨hbehind, rfl⟩ | ⟨hbehind, d, hfresh, hline, hblank, rfl⟩
  · exact .passed hbehind rfl
  · refine .ended hbehind ?_ rfl fun _ => rfl
    show (d.within f).toToken.rest = []
    rw [Cursor.toToken_within hfresh]
    simp [Cursor.within, hblank, hbehind]

theorem Leads.fit (h : f.Leads c) : c.Fit := by
  cases h with
  | onLine fresh line solid cursor => exact cursor ▸ Cursor.fit_within fresh line solid
  | cleared h => exact h.fit

theorem Leads.le_line (h : f.Leads c) : f.number ≤ c.position.line := by
  cases h with
  | onLine _ _ _ cursor => exact cursor ▸ Nat.le_refl _
  | cleared h => exact h.le_line

theorem Stays.statement (h : f.Stays c) : c.statement.line = f.number := by
  rcases h with ⟨d, -, -, rfl⟩ | hended
  · rfl
  · exact hended.statement

/-- Nothing is read of the lines behind. -/
theorem Stays.suffix (h : f.Stays c) : Byte.dropLineEnd f.behind <:+ c.rest := by
  rcases h with ⟨d, -, -, rfl⟩ | ⟨-, rfl⟩ | ⟨-, d, -, -, -, rfl⟩
  · exact (Cursor.dropLineEnd_suffix f.behind).trans (List.suffix_append d.rest f.behind)
  · exact List.suffix_refl _
  · exact (Cursor.dropLineEnd_suffix f.behind).trans (List.suffix_append d.rest f.behind)

/-- Wherever on the line a statement fails, recovery leads to the start of the next line. -/
theorem Stays.recover (h : f.Stays c) : f.Resumed c.recover := by
  rcases h with ⟨d, hfresh, hline, rfl⟩ | ⟨hbehind, rfl⟩ | ⟨-, d, hfresh, hline, -, rfl⟩
  · exact Cursor.resumed_recover hfresh hline
  · exact resumed_passed hbehind
  · exact Cursor.resumed_recover hfresh hline

end Frame

theorem Halted.left (h : Halted f g r s) : f.Stays r.cursor := by
  rcases h with ⟨n, -, c, hfresh, hline, -, -, hr, -⟩ | ⟨-, hr, -⟩
  · exact .inl ⟨c, hfresh, hline, hr⟩
  · exact .inr hr

theorem Halted.right (h : Halted f g r s) : g.Stays s.cursor := by
  rcases h with ⟨n, -, c, hfresh, hline, -, -, -, hs⟩ | ⟨-, -, hs⟩
  · exact .inl ⟨c, hfresh, hline, hs⟩
  · exact .inr hs

theorem Halted.scopes (h : Halted f g r s) : r.scopes = s.scopes := by
  rcases h with ⟨n, hscopes, -⟩ | ⟨hscopes, -⟩ <;> exact hscopes

end Assembler6502
