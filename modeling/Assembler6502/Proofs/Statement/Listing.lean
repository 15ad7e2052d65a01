/-
Listings.

A listing has an instruction or data on each line, with numbers in hexadecimal
and no names.  It is read as what it was printed from, whatever the scopes are
and in both passes.

* **`Statement.text`** — the line of a statement;
* **`Statement.Canonical`** — the statements that can stand in a listing;
* **`parseOperand_yields`** — an operand is read in the mode and with the value
  that it was printed from;
* **`sequenceOf_yields`** — so are the elements of data;
* **`parse_yields`** — so is every statement of a listing.

Design notes.  A number is read with the lexeme behind it, since an operator
there would go on with the expression.  The lemmas on numbers take both lexemes,
and so do not depend on how the text is spaced.
-/
import Assembler6502.Proofs.Machine.Decoding
import Assembler6502.Proofs.Statement.Exactness
import Assembler6502.Proofs.Token.Numbers

namespace Assembler6502

open Assembler6502.Parser

/-! ### Printing -/

/-- A register as it is written. -/
def Register.letter : Register → Char
  | a => 'a'
  | x => 'x'
  | y => 'y'

/-- The operand of an instruction with the space in front of it. -/
def Instruction.operandText (i : Instruction) : List Char :=
  let short := '$' :: Hexadecimal.byte (lowByte i.operand)
  let long := '$' :: Hexadecimal.word i.operand
  match i.mode with
  | .accumulator => [' ', 'a']
  | .implied => []
  | .immediate => ' ' :: '#' :: short
  | .zeroPage => ' ' :: short
  | .zeroPageX => ' ' :: short ++ [',', 'x']
  | .zeroPageY => ' ' :: short ++ [',', 'y']
  | .absolute | .relative => ' ' :: long
  | .absoluteX => ' ' :: long ++ [',', 'x']
  | .absoluteY => ' ' :: long ++ [',', 'y']
  | .indirectX => ' ' :: '(' :: short ++ [',', 'x', ')']
  | .indirectY => ' ' :: '(' :: short ++ [')', ',', 'y']
  | .indirect => ' ' :: '(' :: long ++ [')']

/-- Numbers with commas between them, each behind a space. -/
def elementsText {α : Type} (digits : α → List Char) : List α → List Char
  | [] => []
  | [x] => ' ' :: '$' :: digits x
  | x :: rest => ' ' :: '$' :: digits x ++ ',' :: elementsText digits rest

/-- The digits of a word of data. -/
def wordDigits (w : UInt16) : List Char :=
  Hexadecimal.word w.toUInt32.toInt32

namespace Statement

/-- The line of a statement in a listing; others have none. -/
def text : Statement → List Char
  | .instruction i => ' ' :: i.mnemonic.name.toList ++ i.operandText ++ ['\n']
  | .bytes data => [' ', '.', 'b', 'y', 't', 'e'] ++ elementsText Hexadecimal.byte data ++ ['\n']
  | .words data => [' ', '.', 'w', 'o', 'r', 'd'] ++ elementsText wordDigits data ++ ['\n']
  | _ => []

/-- The statements of a listing: canonical instructions, and data that are not empty. -/
def Canonical (address : Nat) : Statement → Prop
  | .instruction i => i.Canonical address
  | .bytes data => data ≠ []
  | .words data => data ≠ []
  | _ => False

instance (address : Nat) (statement : Statement) : Decidable (statement.Canonical address) :=
  match statement with
  | .instruction i => inferInstanceAs (Decidable (i.Canonical address))
  | .bytes data => inferInstanceAs (Decidable (data ≠ []))
  | .words data => inferInstanceAs (Decidable (data ≠ []))
  | .origin _ | .includeFile _ | .anonymousLabel | .label _ | .assign _ _ _ | .openScope _
  | .closeScope | .undefined | .endOfInput => .isFalse id

end Statement

/-! ### The mode that is read -/

/-- A byte has no high byte. -/
theorem page_eq_zero {v : Int32} (h : fitsByte v = true) : v &&& 0xff00 = 0 := by
  have hall : ∀ n < 256, Int32.ofNat n &&& 0xff00 = 0 := by decide +kernel
  have hrange := fitsByte_iff.mp h
  have hvalue : Int32.ofNat v.toInt.toNat = v := Instruction.ofNat_eq (by omega)
  rw [← hvalue]
  exact hall v.toInt.toNat (by omega)

namespace Instruction

variable {address : Nat} {i : Instruction}

theorem Fits.word (h : i.Fits) : fitsWord i.operand = true := by
  have hbound : i.mode.bound ≤ 0xffff := by cases i.mode <;> decide
  exact fitsWord_iff.mpr ⟨h.1, Int.le_trans h.2 hbound⟩

theorem Fits.byte (h : i.Fits) (hbound : i.mode.bound = 0xff) : fitsByte i.operand = true :=
  fitsByte_iff.mpr ⟨h.1, hbound ▸ h.2⟩

/-- A canonical instruction has the form that is chosen for its operand. -/
theorem Canonical.pageMode (h : i.Canonical address) {short long : Mode}
    (hlong : short.widened = some long) (hmode : i.mode = short ∨ i.mode = long) :
    i.mnemonic.pageMode short i.operand = i.mode := by
  unfold Mnemonic.pageMode
  rw [hlong]
  dsimp only
  have hpermitted := h.permitted
  rcases hmode with hmode | hmode
  · have hbound : i.mode.bound = 0xff := by
      rw [hmode]
      cases short <;> cases hlong <;> rfl
    have hpage := page_eq_zero (h.fits.byte hbound)
    rw [hmode] at hpermitted
    rw [hmode, if_neg]
    rintro (hne | hother)
    · exact hne hpage
    · rw [hpermitted] at hother
      exact absurd hother.1 (by decide)
  · rw [hmode] at hpermitted
    rw [hmode, if_pos]
    cases hshort : i.mnemonic.modes.contains short with
    | false => exact .inr ⟨rfl, hpermitted⟩
    | true =>
      -- the short form would have been chosen for a smaller operand
      have hhigh : AboveZeroPage i.operand := by
        rw [AboveZeroPage, Int32.le_iff_toInt_le]
        exact h.widest short (hlong.trans (congrArg some hmode.symm)) hshort
      exact .inl (page_ne_zero hhigh h.fits.word)

/-- The mnemonics that have the relative mode are the branches. -/
theorem Canonical.isBranch (h : i.Canonical address) :
    i.mnemonic.isBranch = decide (i.mode = .relative) := by
  have htable : ∀ m ∈ Mnemonic.all, ∀ mode ∈ Mode.all, m.modes.contains mode = true →
      m.isBranch = decide (mode = .relative) := by
    decide +kernel
  exact htable _ (Mnemonic.mem_all _) _ (Mode.mem_all _) h.permitted

/-- An instruction without an operand is no shift, unless it is written with the accumulator. -/
theorem Canonical.isShift (h : i.Canonical address) (hmode : i.mode = .implied) :
    i.mnemonic.isShift = false := by
  have htable : ∀ m ∈ Mnemonic.all, m.modes.contains .implied = true → m.isShift = false := by
    decide +kernel
  exact htable _ (Mnemonic.mem_all _) (hmode ▸ h.permitted)

theorem Canonical.operand_eq_zero (h : i.Canonical address) (hsize : i.mode.size = 1) :
    i.operand = 0 := by
  have hmost := h.fits.2
  rw [Mode.bound_of_size_one hsize] at hmost
  exact Int32.toInt_inj.mp (Int.le_antisymm hmost h.fits.1)

end Instruction

/-! ### Numbers -/

namespace Point

variable {fresh : Bool} {behind : List Char} {v : Int32}

/-- A byte is read as itself. -/
theorem leads_short (hfits : fitsByte v = true) (hends : Ends behind) :
    Leads ⟨fresh, '$' :: Hexadecimal.byte (Instruction.lowByte v) ++ behind⟩ (.constant v)
      ⟨false, behind⟩ := by
  have hrange := fitsByte_iff.mp hfits
  have hlow := Instruction.toNat_lowByte hrange.1
  have hvalue : Int32.ofNat (Instruction.lowByte v).toNat = v := Instruction.ofNat_eq (by omega)
  have hnumeral : Leads ⟨fresh, '$' :: Hexadecimal.digits 2 (Instruction.lowByte v).toNat ++ behind⟩
      (.constant (Int32.ofNat (Instruction.lowByte v).toNat)) ⟨false, behind⟩ :=
    leads_hexadecimal (Hexadecimal.folded_digits _ _) (by omega) hends
  rw [hvalue] at hnumeral
  rw [Hexadecimal.byte_eq]
  exact hnumeral

/-- A word is read as itself, with digits in either case. -/
theorem leads_long_of_folded {chars : List Char} (hfits : fitsWord v = true)
    (h : (Byte.ofChars chars).map Byte.folded = Hexadecimal.word v) (hends : Ends behind) :
    Leads ⟨fresh, '$' :: chars ++ behind⟩ (.constant v) ⟨false, behind⟩ := by
  have hrange := fitsWord_iff.mp hfits
  have hnat := Instruction.toNat_toUInt32 hrange.1
  have hvalue : Int32.ofNat v.toUInt32.toNat = v := Instruction.ofNat_eq hnat
  have hnumeral : Leads ⟨fresh, '$' :: chars ++ behind⟩ (.constant (Int32.ofNat v.toUInt32.toNat))
      ⟨false, behind⟩ := leads_hexadecimal h (by omega) hends
  rw [hvalue] at hnumeral
  exact hnumeral

/-- A word as it is printed is read as itself. -/
theorem leads_long (hfits : fitsWord v = true) (hends : Ends behind) :
    Leads ⟨fresh, '$' :: Hexadecimal.word v ++ behind⟩ (.constant v) ⟨false, behind⟩ :=
  leads_long_of_folded hfits (Hexadecimal.folded_digits _ _) hends

/-- What follows is a lexeme with which no expression goes on. -/
def Stops (a : Point) : Prop :=
  ∃ (l : Lexeme Spelling) (l' : Lexeme Name) (b : Point), a.Leads l b ∧
    (∀ scopes, l.bind scopes = (l', scopes)) ∧ l'.operator? = none

theorem ends_cons {c : Char} (h : Byte.isWord c.toUInt8 = false) : Ends (c :: behind) := by
  intro d hd
  cases hd
  exact h

theorem leads_register (r : Register) (hends : Ends behind) :
    Leads ⟨fresh, r.letter :: behind⟩ (.register r) ⟨false, behind⟩ := by
  have hkey : ∀ r : Register, isWordText [r.letter] = true ∧
      Lexeme.keyword? (String.ofList [r.letter]) = some (.register r : Lexeme Spelling) := by
    intro r
    cases r <;> decide +kernel
  exact leads_word (hkey r).1 (hkey r).2 hends

theorem stops_comma : Stops ⟨fresh, ',' :: behind⟩ :=
  ⟨.comma, .comma, _, leads_comma, fun _ => rfl, rfl⟩

theorem stops_rightParen : Stops ⟨fresh, ')' :: behind⟩ :=
  ⟨.rightParen, .rightParen, _, leads_rightParen, fun _ => rfl, rfl⟩

theorem stops_lineEnd : Stops ⟨false, '\n' :: behind⟩ :=
  ⟨.lineEnd, .lineEnd, _, leads_lineEnd, fun _ => rfl, rfl⟩

end Point

namespace Expr

variable {context : Context} {a b : Point} {v : Int32}

theorem peekOperator_yields {α : Type} {kind : Operator → Option α} (h : a.Stops) :
    Yields (peekOperator kind) a none a := by
  obtain ⟨l, l', b, hleads, hl, hop⟩ := h
  refine Yields.peek hleads hl fun position => ?_
  rw [hop]
  exact Yields.pure _ a

/-- Where no operator follows, an operand is all there is. -/
theorem operands_yields {kind : Operator → Option BinaryOp} {operand : Parser Expr} {e : Expr}
    (hoperand : Yields operand a e b) (h : b.Stops) : Yields (operands kind operand) a e b := by
  have hchain : ∀ n, Yields (chain kind operand n e) b e b := by
    intro n
    cases n with
    | zero => exact Yields.pure e b
    | succ n => exact Yields.bind (peekOperator_yields h) (Yields.pure e b)
  exact Yields.bind hoperand (Yields.remaining (hchain _))

/-- A constant that no operator follows is read as an expression. -/
theorem parse_yields (h : a.Leads (.constant v) b) (hstops : b.Stops) :
    Yields (Expr.parse context) a (.value v false) b := by
  have hfactor : ∀ nested, Yields (factor context nested) a (.value v false) b :=
    fun nested => Yields.next h (fun _ => rfl) fun position => Yields.pure _ b
  have hsign : a.Stops := ⟨.constant v, .constant v, b, h, fun _ => rfl, rfl⟩
  have hunary : ∀ nested, Yields (unaryFactor context nested) a (.value v false) b :=
    fun nested => Yields.bind (peekOperator_yields hsign) (hfactor nested)
  exact Yields.remaining (operands_yields (operands_yields (hunary _) hstops) hstops)

end Expr

theorem Value.parse_yields {context : Context} {a b : Point} {v : Int32}
    (h : a.Leads (.constant v) b) (hstops : b.Stops) :
    Yields (Value.parse context) a ⟨v, .absolute⟩ b :=
  Yields.bind (Expr.parse_yields h hstops) (Yields.pure _ b)

namespace Statement

variable {context : Context} {a b : Point} {l : Lexeme Spelling} {l' : Lexeme Name} {v : Int32}
  {text : List Char}

/-! ### Pieces of statements -/

theorem checkWidth_yields {fits : Bool} (h : fits = true) (e : StatementError) (a : Point) :
    Yields (checkWidth context fits e) a () a := by
  rw [checkWidth, h]
  simp only [Bool.not_true, Bool.and_false, Bool.false_eq_true, if_false]
  exact Yields.pure () a

theorem expect_yields {what : String} (h : a.Leads l b)
    (hl : ∀ scopes, l.bind scopes = (l', scopes)) : Yields (expect l' what) a () b := by
  refine Yields.next h hl fun position => ?_
  rw [if_neg (by simp)]
  exact Yields.pure () b

theorem endOfStatement_yields : Yields endOfStatement ⟨false, '\n' :: text⟩ () ⟨true, text⟩ :=
  Yields.peek Point.leads_lineEnd (fun _ => rfl) fun _ =>
    Yields.next Point.leads_lineEnd (fun _ => rfl) fun _ => Yields.pure () _

theorem operand_yields (h : a.Leads (.constant v) b) (hstops : b.Stops) :
    Yields (operand context) a (.inl ⟨v, .absolute⟩) b :=
  Yields.peek h (fun _ => rfl) fun _ =>
    Yields.bind (Value.parse_yields h hstops) (Yields.pure _ b)

theorem expectValue_yields {what : String} (h : a.Leads (.constant v) b) (hstops : b.Stops) :
    Yields (expectValue context what) a ⟨v, .absolute⟩ b :=
  Yields.bind (operand_yields h hstops) (Yields.pure _ b)

/-! ### Operands -/

/-- An operand that is a number and ends with the line. -/
theorem direct_yields {m : Mnemonic} (h : a.Leads (.constant v) ⟨false, '\n' :: text⟩)
    (hword : fitsWord v = true) :
    Yields (parseOperand context m) a
      (if m.isBranch then .relative else m.pageMode .zeroPage v, v) ⟨true, text⟩ := by
  refine Yields.bind (operand_yields h Point.stops_lineEnd) ?_
  refine Yields.bind (checkWidth_yields hword _ _) ?_
  exact Yields.next Point.leads_lineEnd (fun _ => rfl) fun _ => Yields.pure _ _

/-- An operand that is a number with an index. -/
theorem indexed_yields {m : Mnemonic} {r : Register} {short : Mode}
    (h : a.Leads (.constant v) ⟨false, [',', r.letter] ++ '\n' :: text⟩)
    (hword : fitsWord v = true)
    (hr : (r = .x ∧ short = .zeroPageX) ∨ (r = .y ∧ short = .zeroPageY)) :
    Yields (parseOperand context m) a (m.pageMode short v, v) ⟨true, text⟩ := by
  have hends : Point.Ends ('\n' :: text) := Point.ends_cons (by decide)
  refine Yields.bind (operand_yields h Point.stops_comma) ?_
  refine Yields.bind (checkWidth_yields hword _ _) ?_
  refine Yields.next Point.leads_comma (fun _ => rfl) fun _ => ?_
  refine Yields.next (Point.leads_register r hends) (fun _ => rfl) fun _ => ?_
  rcases hr with ⟨rfl, rfl⟩ | ⟨rfl, rfl⟩
  · exact Yields.bind endOfStatement_yields (Yields.pure _ _)
  · exact Yields.bind endOfStatement_yields (Yields.pure _ _)

/-- An operand that begins with a lexeme of its own. -/
theorem operand_inr_yields (h : a.Leads l b) (hl : ∀ scopes, l.bind scopes = (l', scopes))
    (hstarts : l'.startsExpression = false) (hforward : l' ≠ .forward)
    (hbackward : l' ≠ .backward) :
    Yields (operand context) a (.inr l') b := by
  refine Yields.peek h hl fun _ => ?_
  rw [if_neg (by rw [hstarts]; decide)]
  refine Yields.next h hl fun _ => ?_
  split
  · next heq => exact absurd heq hforward
  · next heq => exact absurd heq hbackward
  · exact Yields.pure _ b

theorem implied_yields {m : Mnemonic} :
    Yields (parseOperand context m) ⟨false, '\n' :: text⟩
      (if m.isShift then .accumulator else .implied, 0) ⟨true, text⟩ :=
  Yields.bind (operand_inr_yields Point.leads_lineEnd (fun _ => rfl) rfl nofun nofun)
    (Yields.pure _ _)

theorem accumulator_yields {m : Mnemonic} (h : a.Leads (.register .a) ⟨false, '\n' :: text⟩) :
    Yields (parseOperand context m) a (.accumulator, 0) ⟨true, text⟩ :=
  Yields.bind (operand_inr_yields h (fun _ => rfl) rfl nofun nofun)
    (Yields.bind endOfStatement_yields (Yields.pure _ _))

theorem immediate_yields {m : Mnemonic} (hhash : a.Leads (.operator .hash) b)
    (h : b.Leads (.constant v) ⟨false, '\n' :: text⟩) (hbyte : fitsByte v = true) :
    Yields (parseOperand context m) a (.immediate, v) ⟨true, text⟩ := by
  refine Yields.bind (operand_inr_yields hhash (fun _ => rfl) rfl nofun nofun) ?_
  refine Yields.bind (expectValue_yields h Point.stops_lineEnd) ?_
  refine Yields.bind (checkWidth_yields hbyte _ _) ?_
  exact Yields.bind endOfStatement_yields (Yields.pure _ _)

/-- An operand in parentheses.  An index makes the width of it be looked at again. -/
theorem indirectOperand_yields {m : Mnemonic} {mode : Mode} {c : Point}
    (hparen : a.Leads .leftParen b) (h : b.Leads (.constant v) c) (hstops : c.Stops)
    (hword : fitsWord v = true) (hmode : Yields indirectMode c mode ⟨false, '\n' :: text⟩)
    (hbyte : mode ≠ .indirect → fitsByte v = true) :
    Yields (parseOperand context m) a (mode, v) ⟨true, text⟩ := by
  refine Yields.bind (operand_inr_yields hparen (fun _ => rfl) rfl nofun nofun) ?_
  refine Yields.bind (expectValue_yields h hstops) ?_
  refine Yields.bind (checkWidth_yields hword _ _) ?_
  refine Yields.bind hmode (Yields.bind endOfStatement_yields ?_)
  by_cases hplain : mode = .indirect
  · rw [if_neg (not_not_intro hplain)]
    exact Yields.pure _ _
  · rw [if_pos hplain]
    exact Yields.bind (checkWidth_yields (hbyte hplain) _ _) (Yields.pure _ _)

theorem indirectMode_yields_x :
    Yields indirectMode ⟨false, [',', 'x', ')'] ++ '\n' :: text⟩ .indirectX
      ⟨false, '\n' :: text⟩ := by
  refine Yields.next Point.leads_comma (fun _ => rfl) fun _ => ?_
  refine Yields.bind (expect_yields (Point.leads_register .x (Point.ends_cons (by decide)))
    fun _ => rfl) ?_
  exact Yields.bind (expect_yields Point.leads_rightParen fun _ => rfl) (Yields.pure _ _)

theorem indirectMode_yields_y :
    Yields indirectMode ⟨false, [')', ',', 'y'] ++ '\n' :: text⟩ .indirectY
      ⟨false, '\n' :: text⟩ := by
  refine Yields.next Point.leads_rightParen (fun _ => rfl) fun _ => ?_
  refine Yields.peek Point.leads_comma (fun _ => rfl) fun _ => ?_
  refine Yields.next Point.leads_comma (fun _ => rfl) fun _ => ?_
  exact Yields.bind (expect_yields (Point.leads_register .y (Point.ends_cons (by decide)))
    fun _ => rfl) (Yields.pure _ _)

theorem indirectMode_yields :
    Yields indirectMode ⟨false, [')'] ++ '\n' :: text⟩ .indirect ⟨false, '\n' :: text⟩ :=
  Yields.next Point.leads_rightParen (fun _ => rfl) fun _ =>
    Yields.peek Point.leads_lineEnd (fun _ => rfl) fun _ => Yields.pure _ _

/-! ### Instructions -/

section Instructions

variable {address : Nat} {i : Instruction}

theorem direct_canonical (h : i.Canonical address)
    (hmode : i.mode = .zeroPage ∨ i.mode = .absolute ∨ i.mode = .relative)
    (hleads : a.Leads (.constant i.operand) ⟨false, '\n' :: text⟩) :
    Yields (parseOperand context i.mnemonic) a (i.mode, i.operand) ⟨true, text⟩ := by
  have hchosen : (if i.mnemonic.isBranch then .relative
      else i.mnemonic.pageMode .zeroPage i.operand) = i.mode := by
    rw [h.isBranch]
    rcases hmode with hmode | hmode | hmode
    · rw [hmode, if_neg (by decide), h.pageMode rfl (.inl hmode), hmode]
    · rw [hmode, if_neg (by decide), h.pageMode rfl (.inr hmode), hmode]
    · rw [hmode]
      rfl
  rw [← hchosen]
  exact direct_yields hleads h.fits.word

theorem indexed_canonical (h : i.Canonical address) {r : Register} {short long : Mode}
    (hr : (r = .x ∧ short = .zeroPageX) ∨ (r = .y ∧ short = .zeroPageY))
    (hlong : short.widened = some long) (hmode : i.mode = short ∨ i.mode = long)
    (hleads : a.Leads (.constant i.operand) ⟨false, [',', r.letter] ++ '\n' :: text⟩) :
    Yields (parseOperand context i.mnemonic) a (i.mode, i.operand) ⟨true, text⟩ := by
  rw [← h.pageMode hlong hmode]
  exact indexed_yields hleads h.fits.word hr

theorem implied_canonical (h : i.Canonical address) (hmode : i.mode = .implied) :
    Yields (parseOperand context i.mnemonic) ⟨false, '\n' :: text⟩ (i.mode, i.operand)
      ⟨true, text⟩ := by
  have hchosen : (if i.mnemonic.isShift then .accumulator else .implied) = i.mode := by
    rw [h.isShift hmode, hmode]
    rfl
  rw [← hchosen, h.operand_eq_zero (by rw [hmode]; rfl)]
  exact implied_yields

/-- The operand of a canonical instruction is read in its mode. -/
theorem parseOperand_yields (h : i.Canonical address) (text : List Char) :
    Yields (parseOperand context i.mnemonic) ⟨false, i.operandText ++ '\n' :: text⟩
      (i.mode, i.operand) ⟨true, text⟩ := by
  have hends : Point.Ends ('\n' :: text) := Point.ends_cons (by decide)
  have hcomma : ∀ {behind}, Point.Ends (',' :: behind) := Point.ends_cons (by decide)
  have hparen : ∀ {behind}, Point.Ends (')' :: behind) := Point.ends_cons (by decide)
  have hword := h.fits.word
  have hbyte := h.fits.byte
  have hzero := h.operand_eq_zero
  -- what is printed behind a number, with the end of the line
  have hbehind : ∀ digits behind : List Char,
      ' ' :: '$' :: digits ++ behind ++ '\n' :: text =
        ' ' :: ('$' :: digits ++ (behind ++ '\n' :: text)) := by
    simp
  have hinside : ∀ digits behind : List Char,
      ' ' :: '(' :: '$' :: digits ++ behind ++ '\n' :: text =
        ' ' :: '(' :: ('$' :: digits ++ (behind ++ '\n' :: text)) := by
    simp
  -- the text is that of the mode; whether the short or the long form is read is left to the lemmas
  unfold Instruction.operandText
  cases hmode : i.mode with
  | accumulator =>
    rw [hzero (congrArg Mode.size hmode)]
    exact accumulator_yields (Point.leads_register .a hends).space
  | implied =>
    dsimp only
    rw [← hmode]
    exact implied_canonical h hmode
  | immediate =>
    have hfits := hbyte (congrArg Mode.bound hmode)
    exact immediate_yields Point.leads_hash.space (Point.leads_short hfits hends) hfits
  | zeroPage =>
    have hfits := hbyte (congrArg Mode.bound hmode)
    dsimp only
    rw [← hmode]
    exact direct_canonical h (.inl hmode) (Point.leads_short hfits hends).space
  | absolute =>
    dsimp only
    rw [← hmode]
    exact direct_canonical h (.inr (.inl hmode)) (Point.leads_long hword hends).space
  | relative =>
    dsimp only
    rw [← hmode]
    exact direct_canonical h (.inr (.inr hmode)) (Point.leads_long hword hends).space
  | zeroPageX =>
    have hfits := hbyte (congrArg Mode.bound hmode)
    dsimp only
    rw [hbehind, ← hmode]
    exact indexed_canonical h (.inl ⟨rfl, rfl⟩) rfl (.inl hmode)
      (Point.leads_short hfits hcomma).space
  | zeroPageY =>
    have hfits := hbyte (congrArg Mode.bound hmode)
    dsimp only
    rw [hbehind, ← hmode]
    exact indexed_canonical h (.inr ⟨rfl, rfl⟩) rfl (.inl hmode)
      (Point.leads_short hfits hcomma).space
  | absoluteX =>
    dsimp only
    rw [hbehind, ← hmode]
    exact indexed_canonical h (.inl ⟨rfl, rfl⟩) rfl (.inr hmode)
      (Point.leads_long hword hcomma).space
  | absoluteY =>
    dsimp only
    rw [hbehind, ← hmode]
    exact indexed_canonical h (.inr ⟨rfl, rfl⟩) rfl (.inr hmode)
      (Point.leads_long hword hcomma).space
  | indirectX =>
    have hfits := hbyte (congrArg Mode.bound hmode)
    dsimp only
    rw [hinside]
    exact indirectOperand_yields Point.leads_leftParen.space
      (Point.leads_short hfits hcomma) Point.stops_comma hword indirectMode_yields_x
      fun _ => hfits
  | indirectY =>
    have hfits := hbyte (congrArg Mode.bound hmode)
    dsimp only
    rw [hinside]
    exact indirectOperand_yields Point.leads_leftParen.space
      (Point.leads_short hfits hparen) Point.stops_rightParen hword indirectMode_yields_y
      fun _ => hfits
  | indirect =>
    dsimp only
    rw [hinside]
    exact indirectOperand_yields Point.leads_leftParen.space (Point.leads_long hword hparen)
      Point.stops_rightParen hword indirectMode_yields fun hne => absurd rfl hne

end Instructions

/-! ### Data -/

theorem sequenceValue_yields (h : a.Leads (.constant v) b) (hstops : b.Stops) :
    Yields (sequenceValue context) a v b := by
  refine Yields.peek h (fun _ => rfl) fun _ => ?_
  rw [if_neg nofun]
  exact Yields.bind (expectValue_yields h hstops) (Yields.pure _ b)

/-- A byte of data is read as it was printed. -/
theorem byteElement_yields {behind : List Char} (x : UInt8) (hends : Point.Ends behind)
    (hstops : (⟨false, behind⟩ : Point).Stops) :
    Yields (byteElement context) ⟨false, ' ' :: '$' :: Hexadecimal.byte x ++ behind⟩ [x]
      ⟨false, behind⟩ := by
  have hlt := x.toNat_lt
  have hvalue : x.toUInt32.toInt32.toInt = x.toNat := by
    rw [← UInt8.toNat_toUInt32]
    exact toInt_toInt32 (by rw [UInt8.toNat_toUInt32]; omega)
  have hfits : fitsByte x.toUInt32.toInt32 = true := fitsByte_iff.mpr (by omega)
  -- the element is read as a number and cut to its low byte, which is all of it
  have hlow : Instruction.lowByte x.toUInt32.toInt32 = x := by simp [Instruction.lowByte]
  have hleads : Point.Leads
      ⟨false, ' ' :: '$' :: Hexadecimal.byte (Instruction.lowByte x.toUInt32.toInt32) ++ behind⟩
      (.constant x.toUInt32.toInt32) ⟨false, behind⟩ := (Point.leads_short hfits hends).space
  rw [hlow] at hleads
  refine Yields.peek hleads (fun _ => rfl) fun _ => ?_
  refine Yields.bind (sequenceValue_yields hleads hstops) ?_
  refine Yields.bind (checkWidth_yields hfits _ _) ?_
  rw [hlow]
  exact Yields.pure _ _

/-- So is a word of data. -/
theorem wordElement_yields {behind : List Char} (x : UInt16) (hends : Point.Ends behind)
    (hstops : (⟨false, behind⟩ : Point).Stops) :
    Yields (wordElement context) ⟨false, ' ' :: '$' :: wordDigits x ++ behind⟩ [x]
      ⟨false, behind⟩ := by
  have hlt := x.toNat_lt
  have hvalue := toInt_word x
  have hfits : fitsWord x.toUInt32.toInt32 = true := fitsWord_iff.mpr (by omega)
  have hword : x.toUInt32.toInt32.toUInt32.toUInt16 = x := by simp
  have hleads : Point.Leads ⟨false, ' ' :: '$' :: wordDigits x ++ behind⟩
      (.constant x.toUInt32.toInt32) ⟨false, behind⟩ := (Point.leads_long hfits hends).space
  refine Yields.bind (sequenceValue_yields hleads hstops) ?_
  refine Yields.bind (checkWidth_yields hfits _ _) ?_
  rw [hword]
  exact Yields.pure _ _

section Sequences

variable {α : Type} {digits : α → List Char} {element : Parser (List α)}

/-- There are no more elements than characters. -/
theorem length_le_elementsText (data : List α) :
    data.length ≤ (elementsText digits data).length := by
  induction data with
  | nil => exact Nat.le_refl _
  | cons x rest ih =>
    cases rest with
    | nil => exact Nat.succ_le_succ (Nat.zero_le _)
    | cons y rest =>
      have hlength : (elementsText digits (x :: y :: rest)).length =
          (digits x).length + (elementsText digits (y :: rest)).length + 3 := by
        show (' ' :: '$' :: digits x ++ ',' :: elementsText digits (y :: rest)).length = _
        simp only [List.cons_append, List.length_cons, List.length_append]
        omega
      rw [hlength, List.length_cons]
      omega

/-- Elements with commas between them are read if each one is. -/
theorem sequenceOf_yields
    (helement : ∀ x behind, Point.Ends behind → (⟨false, behind⟩ : Point).Stops →
      Yields element ⟨false, ' ' :: '$' :: digits x ++ behind⟩ [x] ⟨false, behind⟩)
    {data : List α} (hdata : data ≠ []) {n : Nat} (hn : data.length ≤ n) (text : List Char) :
    Yields (sequenceOf element n) ⟨false, elementsText digits data ++ '\n' :: text⟩ data
      ⟨true, text⟩ := by
  -- the last element is told from the others by what stands behind it
  induction data generalizing n with
  | nil => exact absurd rfl hdata
  | cons x rest ih =>
    obtain ⟨n, rfl⟩ : ∃ k, n = k + 1 := ⟨n - 1, by rw [List.length_cons] at hn; omega⟩
    cases rest with
    | nil =>
      refine Yields.bind (helement x _ (Point.ends_cons (by decide)) Point.stops_lineEnd) ?_
      have hmore : Yields moreInSequence ⟨false, '\n' :: text⟩ false ⟨true, text⟩ :=
        Yields.next Point.leads_lineEnd (fun _ => rfl) fun _ => Yields.pure _ _
      exact Yields.bind hmore (Yields.pure _ _)
    | cons y rest =>
      have htext : elementsText digits (x :: y :: rest) ++ '\n' :: text =
          ' ' :: '$' :: digits x ++ (',' :: (elementsText digits (y :: rest) ++ '\n' :: text)) := by
        show ' ' :: '$' :: digits x ++ ',' :: elementsText digits (y :: rest) ++ '\n' :: text = _
        simp
      rw [htext]
      refine Yields.bind (helement x _ (Point.ends_cons (by decide)) Point.stops_comma) ?_
      have hmore : ∀ behind, Yields moreInSequence ⟨false, ',' :: behind⟩ true ⟨false, behind⟩ :=
        fun behind => Yields.next Point.leads_comma (fun _ => rfl) fun _ => Yields.pure _ _
      have hrest := ih nofun (Nat.le_of_succ_le_succ hn)
      exact Yields.bind (hmore _) (Yields.bind hrest (Yields.pure _ _))

theorem sequence_yields
    (helement : ∀ x behind, Point.Ends behind → (⟨false, behind⟩ : Point).Stops →
      Yields element ⟨false, ' ' :: '$' :: digits x ++ behind⟩ [x] ⟨false, behind⟩)
    {data : List α} (hdata : data ≠ []) (text : List Char) :
    Yields (sequence element) ⟨false, elementsText digits data ++ '\n' :: text⟩ data
      ⟨true, text⟩ := by
  refine Yields.remaining (sequenceOf_yields helement hdata ?_ text)
  have hlength : data.length ≤ (elementsText digits data).length := length_le_elementsText data
  show data.length ≤ (elementsText digits data ++ '\n' :: text).length + 1
  rw [List.length_append]
  omega

end Sequences

/-! ### Statements -/

theorem firstToken_yields {β : Type} {f : Token Name → Parser β} {c : Point} {y : β}
    (h : a.Leads l b) (hl : ∀ scopes, l.bind scopes = (l', scopes)) (hne : l' ≠ .lineEnd)
    (hf : ∀ position, Yields (f ⟨l', position⟩) b y c) : Yields (firstToken >>= f) a y c := by
  intro r hr
  obtain ⟨position, cursor, hread, hcursor⟩ := Yields.next_of_leads h hl hr
  obtain ⟨cursor', hy, hcursor'⟩ := hf position { r with cursor } hcursor
  have hfirst : firstToken r = .ok ⟨l', position⟩ { r with cursor } := by
    show EStateM.bind Parser.next _ r = _
    rw [EStateM.bind, hread]
    dsimp only
    rw [if_neg hne]
    rfl
  refine ⟨cursor', ?_, hcursor'⟩
  show EStateM.bind firstToken f r = _
  rw [EStateM.bind, hfirst]
  exact hy

/-- A statement behind the word that it begins with. -/
theorem parse_of_word {word behind : List Char} {statement : Statement}
    (hword : Point.isWordText word = true)
    (hkey : Lexeme.keyword? (String.ofList word) = some l)
    (hl : ∀ scopes, l.bind scopes = (l', scopes)) (hne : l' ≠ .lineEnd)
    (hends : Point.Ends behind)
    (hrest : ∀ position, Yields (parseFrom context ⟨l', position⟩) ⟨false, behind⟩ statement b) :
    Yields (parse context) ⟨true, ' ' :: word ++ behind⟩ statement b :=
  firstToken_yields (Point.leads_word hword hkey hends).space hl hne hrest

theorem keyword?_mnemonic (m : Mnemonic) : Point.isWordText m.name.toList = true ∧
    Lexeme.keyword? (String.ofList m.name.toList) = some (.mnemonic m : Lexeme Spelling) := by
  have hall : ∀ m ∈ Mnemonic.all, Point.isWordText m.name.toList = true ∧
      Lexeme.keyword? (String.ofList m.name.toList) = some (.mnemonic m : Lexeme Spelling) := by
    decide +kernel
  exact hall m (Mnemonic.mem_all m)

/-- The operand of an instruction does not go on with its name. -/
theorem ends_operandText (i : Instruction) (text : List Char) :
    Point.Ends (i.operandText ++ '\n' :: text) := by
  unfold Instruction.operandText
  cases i.mode <;> exact Point.ends_cons (by decide)

theorem ends_elementsText {α : Type} {digits : α → List Char} (data : List α) (text : List Char) :
    Point.Ends (elementsText digits data ++ '\n' :: text) := by
  match data with
  | [] | [_] | _ :: _ :: _ => exact Point.ends_cons (by decide)

/-- Every statement of a listing is read as it was printed. -/
theorem parse_yields {address : Nat} {statement : Statement} (h : statement.Canonical address)
    (rest : List Char) :
    Yields (parse context) ⟨true, statement.text ++ rest⟩ statement ⟨true, rest⟩ := by
  have hline : ∀ word behind : List Char, ' ' :: word ++ behind ++ ['\n'] ++ rest =
      ' ' :: word ++ (behind ++ '\n' :: rest) := by
    simp
  cases statement with
  | instruction i =>
    rw [text, hline]
    refine parse_of_word (keyword?_mnemonic i.mnemonic).1 (keyword?_mnemonic i.mnemonic).2
      (fun _ => rfl) nofun (ends_operandText i rest) fun _ => ?_
    exact Yields.bind (parseOperand_yields h rest) (Yields.pure _ _)
  | bytes data =>
    rw [text, hline]
    refine parse_of_word (l := .directive .bytes) (by decide) (by decide +kernel) (fun _ => rfl)
      nofun (ends_elementsText data rest) fun _ => ?_
    exact Yields.bind (sequence_yields (fun x _ => byteElement_yields x) h rest) (Yields.pure _ _)
  | words data =>
    rw [text, hline]
    refine parse_of_word (l := .directive .words) (by decide) (by decide +kernel) (fun _ => rfl)
      nofun (ends_elementsText data rest) fun _ => ?_
    exact Yields.bind (sequence_yields (fun x _ => wordElement_yields x) h rest) (Yields.pure _ _)
  | _ => exact h.elim

/-- Behind the last line is the end of the input. -/
theorem parse_yields_endOfInput :
    Yields (parse context) ⟨true, []⟩ .endOfInput ⟨false, []⟩ :=
  firstToken_yields Point.leads_endOfInput (fun _ => rfl) nofun fun _ => Yields.pure _ _

end Statement

end Assembler6502
