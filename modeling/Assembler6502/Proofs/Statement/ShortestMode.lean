/-
The mode of an operand is the shortest one that the mnemonic takes.

An operand without parentheses is written alone, or with `,x` or `,y` behind it.
Each of these forms has an absolute mode, and a zero-page mode for operands of
one byte.  In the second pass the operand is known, and the operand and the
mnemonic settle the mode.

* **`OperandForm.candidates`** — the modes of a form that have room for an
  operand;
* **`Mnemonic.Shortest`** — a mode that the mnemonic takes, and no candidate that
  it takes is shorter;
* **`Mnemonic.shortest_pageMode`** — the mode that is chosen is one of these, if
  the mnemonic takes any candidate;
* **`Statement.parse_shortest`** — so it is for every instruction that is
  written in one of the forms, and otherwise it has no encoding.

Design notes.  An operand that begins with a parenthesis is an indirect one, even
if an expression stands there (`Derives.starts`), so it has none of the forms.
-/
import Assembler6502.Proofs.Expression.Recognition
import Assembler6502.Proofs.Statement.Listing
import Assembler6502.Proofs.Token.Sequence

namespace Assembler6502

open Assembler6502.Parser

/-! ### Forms and their modes -/

/-- How an operand without parentheses is written. -/
inductive OperandForm where
  | direct
  | indexedX
  | indexedY
deriving DecidableEq, Repr

namespace OperandForm

def zeroPage : OperandForm → Mode
  | direct => .zeroPage
  | indexedX => .zeroPageX
  | indexedY => .zeroPageY

def absolute : OperandForm → Mode
  | direct => .absolute
  | indexedX => .absoluteX
  | indexedY => .absoluteY

/-- What stands behind the operand, up to the end of the line. -/
def suffix : OperandForm → List (Lexeme Spelling)
  | direct => []
  | indexedX => [.comma, .register .x]
  | indexedY => [.comma, .register .y]

/-- The modes of the form that have room for an operand. -/
def candidates (form : OperandForm) (v : Int32) : List Mode :=
  form.absolute :: if v.toInt < 0x100 then [form.zeroPage] else []

variable (form : OperandForm)

theorem widened_zeroPage : form.zeroPage.widened = some form.absolute := by
  cases form <;> rfl

theorem zeroPage_ne_relative : form.zeroPage ≠ .relative := by
  cases form <;> decide

theorem absolute_ne_relative : form.absolute ≠ .relative := by
  cases form <;> decide

theorem size_zeroPage_le : form.zeroPage.size ≤ form.absolute.size := by
  cases form <;> decide

theorem mem_candidates {v : Int32} {mode : Mode} :
    mode ∈ form.candidates v ↔ mode = form.absolute ∨ v.toInt < 0x100 ∧ mode = form.zeroPage := by
  rw [candidates, List.mem_cons]
  split <;> simp [*]

end OperandForm

/-! ### The choice -/

namespace Mnemonic

/-- The mnemonic takes the mode, which is one of `modes`, and takes none of them that is shorter. -/
structure Shortest (m : Mnemonic) (modes : List Mode) (mode : Mode) : Prop where
  mem : mode ∈ modes
  permitted : m.modes.contains mode = true
  size_le : ∀ other ∈ modes, m.modes.contains other = true → mode.size ≤ other.size

variable {m : Mnemonic} {form : OperandForm} {v : Int32}

theorem pageMode_of_word (hword : fitsWord v = true) (h : ¬ v.toInt < 0x100) :
    m.pageMode form.zeroPage v = form.absolute := by
  have habove : AboveZeroPage v := by
    rw [AboveZeroPage, Int32.le_iff_toInt_le]
    exact Int.not_lt.mp h
  unfold pageMode
  rw [form.widened_zeroPage]
  exact if_pos (.inl (page_ne_zero habove hword))

theorem pageMode_of_byte (hword : fitsWord v = true) (h : v.toInt < 0x100) :
    m.pageMode form.zeroPage v =
      if m.modes.contains form.zeroPage = false ∧ m.modes.contains form.absolute = true then
        form.absolute
      else form.zeroPage := by
  have hbyte : fitsByte v = true := fitsByte_iff.mpr ⟨(fitsWord_iff.mp hword).1, by omega⟩
  unfold pageMode
  rw [form.widened_zeroPage]
  simp only [page_eq_zero hbyte, ne_eq, not_true_eq_false, false_or]

theorem pageMode_eq_or (m : Mnemonic) (form : OperandForm) (hword : fitsWord v = true) :
    m.pageMode form.zeroPage v = form.absolute ∨ m.pageMode form.zeroPage v = form.zeroPage := by
  by_cases h : v.toInt < 0x100
  · rw [pageMode_of_byte hword h]
    split
    · exact .inl rfl
    · exact .inr rfl
  · exact .inl (pageMode_of_word hword h)

/-- The mode that is chosen is a candidate. -/
theorem pageMode_mem_candidates (hword : fitsWord v = true) :
    m.pageMode form.zeroPage v ∈ form.candidates v := by
  rw [form.mem_candidates]
  by_cases h : v.toInt < 0x100
  · exact (pageMode_eq_or m form hword).imp_right fun hmode => ⟨h, hmode⟩
  · exact .inl (pageMode_of_word hword h)

/-- The mnemonic takes the mode that is chosen, if it takes any candidate. -/
theorem contains_pageMode (hword : fitsWord v = true) {mode : Mode}
    (hmem : mode ∈ form.candidates v) (htaken : m.modes.contains mode = true) :
    m.modes.contains (m.pageMode form.zeroPage v) = true := by
  rw [form.mem_candidates] at hmem
  by_cases h : v.toInt < 0x100
  · rw [pageMode_of_byte hword h]
    split
    · next hpromoted => exact hpromoted.2
    · next hkept =>
      -- the absolute mode was not chosen, so the other one is taken if either is
      rcases hmem with rfl | ⟨-, rfl⟩
      · exact Bool.eq_true_of_not_eq_false fun hzero => hkept ⟨hzero, htaken⟩
      · exact htaken
  · rw [pageMode_of_word hword h]
    rcases hmem with rfl | ⟨hbyte, -⟩
    · exact htaken
    · exact absurd hbyte h

/-- No candidate that the mnemonic takes is shorter than the mode that is chosen. -/
theorem size_pageMode_le (hword : fitsWord v = true) {mode : Mode}
    (hmem : mode ∈ form.candidates v) (htaken : m.modes.contains mode = true) :
    (m.pageMode form.zeroPage v).size ≤ mode.size := by
  rcases form.mem_candidates.mp hmem with rfl | ⟨hbyte, rfl⟩
  · rcases pageMode_eq_or m form hword with h | h
    · rw [h]
    · rw [h]
      exact form.size_zeroPage_le
  · rw [pageMode_of_byte hword hbyte, if_neg]
    rintro ⟨hzero, -⟩
    rw [htaken] at hzero
    cases hzero

theorem shortest_pageMode (hword : fitsWord v = true)
    (h : ∃ mode ∈ form.candidates v, m.modes.contains mode = true) :
    m.Shortest (form.candidates v) (m.pageMode form.zeroPage v) := by
  obtain ⟨mode, hmem, htaken⟩ := h
  exact ⟨pageMode_mem_candidates hword, contains_pageMode hword hmem htaken,
    fun _ hother hpermitted => size_pageMode_le hword hother hpermitted⟩

theorem pageMode_ne_relative (m : Mnemonic) (form : OperandForm) (hword : fitsWord v = true) :
    m.pageMode form.zeroPage v ≠ .relative := by
  rcases pageMode_eq_or m form hword with h | h <;> rw [h]
  · exact form.absolute_ne_relative
  · exact form.zeroPage_ne_relative

end Mnemonic

/-- Outside branches, an instruction in a mode that its mnemonic takes has an encoding. -/
theorem Instruction.exists_encode {i : Instruction} (hmode : i.mode ≠ .relative)
    (h : i.mnemonic.modes.contains i.mode = true) (pass : Pass) (address : Int32) :
    ∃ bytes, i.encode pass address = .ok bytes ∧ bytes.length = i.mode.size := by
  cases hencode : i.encode pass address with
  | ok bytes => exact ⟨bytes, rfl, length_encode hencode⟩
  | error e =>
    have hrefused := ((encode_eq_error_iff hmode).mp hencode).2
    rw [h] at hrefused
    cases hrefused

/-! ### What an expression begins with -/

theorem UnaryOp.startsExpression {op : UnaryOp} {sign : Operator} (h : sign ∈ op.signs) :
    (Lexeme.operator sign : Lexeme Spelling).startsExpression = true := by
  cases op <;> cases sign <;> revert h <;> decide

/-- What begins an expression is a parenthesis or marks an operand as a value. -/
theorem Derives.starts {part : Part} {ts : List (Lexeme Spelling)} {p : Phrase}
    (h : Derives part ts p) (hpart : ∀ rank left, part ≠ .more rank left) :
    ∃ l more, ts = l :: more ∧ (l = .leftParen ∨ l.startsExpression = true) := by
  induction h with
  | constant | here | name => exact ⟨_, _, rfl, .inr rfl⟩
  | parens => exact ⟨_, _, rfl, .inl rfl⟩
  | unary written => exact ⟨_, _, rfl, .inr (UnaryOp.startsExpression written)⟩
  | factor _ ih => exact ih (by simp)
  | @operands rank ts us p q _ _ ih =>
    obtain ⟨l, more, rfl, hl⟩ := ih (by cases rank <;> simp [Rank.operand])
    exact ⟨l, more ++ us, rfl, hl⟩
  | stop | more => exact absurd rfl (hpart _ _)

/-! ### Reading an operand -/

/-- The line or the input ends at the cursor. -/
def Cursor.AtLineEnd (c : Cursor) : Prop :=
  ∃ t c', c.next = (.ok t, c') ∧ t.lexeme.isEnding = true

namespace Statement

variable {c : Context} {r r' : Reading} {v : Int32}

theorem reference_of_resolved (hpass : c.pass = .second)
    {resolve : List Int32 → Int32 → Option Int32} {e : StatementError}
    (h : resolve c.anonymous c.address = some v) :
    reference c resolve e r = .ok ⟨v, .relocatable⟩ r := by
  rw [reference, hpass]
  dsimp only
  rw [h]
  rfl

/-- What is evaluated is read as a value, unless it begins with a parenthesis. -/
theorem operand_of_evaluates (hpass : c.pass = .second) (h : Evaluates c r v r')
    (hdirect : ∀ t d, r.cursor.next = (.ok t, d) → t.lexeme ≠ .leftParen) :
    ∃ value r₁, operand c r = .ok (.inl value) r₁ ∧ value.number = v ∧ r₁.cursor = r'.cursor := by
  cases h with
  | @expression r₁ _ value ahead parsed =>
    obtain ⟨ts, p, hsentence, hdefined, hvalue⟩ := Expr.sentence_of_value hpass parsed
    rw [ahead.cursor] at hsentence
    obtain ⟨l, more, rfl, hstarts⟩ := hsentence.derives.starts (by simp)
    obtain ⟨t, d, hnext, rfl, -⟩ := hsentence.tokens.of_cons
    have hlexeme := hstarts.resolve_left (hdirect t d hnext)
    -- looking at the first token keeps the values of all names
    have hsame := r.sameValues_bind t.lexeme r.cursor
    obtain ⟨r₂, hcursor, hparse⟩ := Expr.value_of_sentence hpass
      (r := { r with scopes := (t.lexeme.bind r.scopes).2 }) hsentence
      ((Phrase.defined_congr p hsame.resolve).mpr
        ((Phrase.defined_congr p ahead.toSameValues.resolve).mp hdefined))
    rw [Phrase.expr_congr c.address p hsame.resolve,
      ← Phrase.expr_congr c.address p ahead.toSameValues.resolve, hvalue] at hparse
    refine ⟨value, r₂, ?_, rfl, hcursor⟩
    unfold operand
    rw [bind_of_ok (peek_of_cursor hnext), if_pos (by rwa [Lexeme.startsExpression_bind]),
      bind_of_ok hparse]
    rfl
  | forward ahead read lexeme resolved | backward ahead read lexeme resolved =>
    obtain ⟨⟨l, p⟩, hnext, rfl, -⟩ := next_eq_ok read
    rw [ahead.cursor] at hnext
    cases l <;> cases lexeme
    refine ⟨⟨v, .relocatable⟩, { r with cursor := r'.cursor }, ?_, rfl, rfl⟩
    unfold operand
    rw [bind_of_ok (peek_of_cursor hnext)]
    exact (bind_of_ok (next_of_cursor hnext)).trans
      (bind_of_ok (reference_of_resolved hpass resolved))

/-- A line or an input that ends is the end of a statement. -/
theorem endOfStatement_of_atLineEnd (h : r.cursor.AtLineEnd) : ∃ r', endOfStatement r = .ok () r' := by
  obtain ⟨⟨l, p⟩, d, hnext, hending⟩ := h
  unfold endOfStatement
  rw [bind_of_ok (peek_of_cursor hnext)]
  cases l with
  | lineEnd =>
    refine ⟨{ r with cursor := d }, ?_⟩
    exact bind_of_ok (next_of_cursor (r := { r with scopes := _ }) hnext)
  | endOfInput => exact ⟨_, rfl⟩
  | _ => cases hending

/-- The form that an operand is written in decides between the two modes of that form. -/
theorem directOperand_of_suffix {m : Mnemonic} (hm : m.isBranch = false) {form : OperandForm}
    (hword : fitsWord v = true) {d : Cursor} (hsuffix : r.cursor.Tokens form.suffix d)
    (hend : d.AtLineEnd) :
    ∃ r', directOperand c m v r = .ok (m.pageMode form.zeroPage v, v) r' := by
  unfold directOperand
  have hcheck : checkWidth c (fitsWord v) .numberTooLarge r = .ok () r := by
    rw [checkWidth, hword, Bool.not_true, Bool.and_false]
    rfl
  rw [bind_of_ok hcheck]
  cases form with
  | direct =>
    cases hsuffix
    obtain ⟨⟨l, p⟩, e, hnext, hending⟩ := hend
    rw [bind_of_ok (next_of_cursor hnext), hm]
    cases l with
    | lineEnd | endOfInput => exact ⟨_, rfl⟩
    | _ => cases hending
  | indexedX | indexedY =>
    -- a comma and a register, and then the end of the statement is asked for
    obtain ⟨⟨l, p⟩, d₁, hcomma, rfl, hsuffix⟩ := hsuffix.of_cons
    obtain ⟨⟨l, p'⟩, d₂, hregister, rfl, hsuffix⟩ := hsuffix.of_cons
    cases hsuffix
    obtain ⟨r', hr'⟩ := endOfStatement_of_atLineEnd (r := { r with cursor := d }) hend
    rw [bind_of_ok (next_of_cursor hcomma)]
    refine ⟨r', (bind_of_ok (next_of_cursor (r := { r with cursor := d₁ }) hregister)).trans ?_⟩
    exact bind_of_ok hr'

/-- An instruction stands ahead, with an operand that is written in the form and has the value
`v`. -/
inductive Written (c : Context) (r : Reading) (m : Mnemonic) (form : OperandForm) (v : Int32) :
    Prop where
  | intro {position : Position} {behind d : Cursor} {r' : Reading}
      (mnemonic : r.cursor.next = (.ok ⟨.mnemonic m, position⟩, behind))
      (direct : ∀ t e, behind.next = (.ok t, e) → t.lexeme ≠ .leftParen)
      (operand : Evaluates c { r with cursor := behind } v r')
      (suffix : r'.cursor.Tokens form.suffix d) (ends : d.AtLineEnd) : Written c r m form v

/-- An operand that is an expression can be evaluated by itself. -/
theorem Written.of_value {m : Mnemonic} {f : OperandForm} {position : Position}
    {b d d₁ e : Cursor} {t : Token Spelling}
    (hmnemonic : r.cursor.next = (.ok ⟨.mnemonic m, position⟩, b))
    (hfirst : b.next = (.ok t, d₁)) (ht : t.lexeme ≠ .leftParen)
    (hvalue : result? (Value.parse c >>= fun value r => .ok (value.number, r.cursor) r)
      { r with cursor := b } = some (v, d))
    (hsuffix : d.Tokens f.suffix e) (hend : e.AtLineEnd) : Written c r m f v := by
  obtain ⟨_, h⟩ := exists_of_result? hvalue
  obtain ⟨value, r', hparse, h⟩ := bind_eq_ok h
  cases h
  refine .intro hmnemonic (fun u d₂ hnext => ?_) (.expression (.refl _) hparse) hsuffix hend
  rw [hfirst] at hnext
  cases hnext
  exact ht

theorem parse_of_written (hpass : c.pass = .second) {m : Mnemonic} (hm : m.isBranch = false)
    {form : OperandForm} (h : Written c r m form v) (hword : fitsWord v = true) :
    ∃ r', parse c r = .ok (.instruction ⟨m, m.pageMode form.zeroPage v, v⟩) r' := by
  obtain ⟨hmnemonic, hdirect, hoperand, hsuffix, hend⟩ := h
  obtain ⟨value, r₁, hvalue, rfl, hcursor⟩ := operand_of_evaluates hpass hoperand hdirect
  rw [← hcursor] at hsuffix
  obtain ⟨r', hr'⟩ := directOperand_of_suffix (c := c) hm hword hsuffix hend
  refine ⟨r', (parse_of_next (next_of_cursor hmnemonic) (by simp [Lexeme.bind])).trans ?_⟩
  have hparse : parseOperand c m _ = _ := (bind_of_ok hvalue).trans hr'
  exact bind_of_ok hparse

/-- The choice of the mode is legal and the shortest.  In the second pass, an instruction other than
a branch, with an operand of sixteen bits in one of the forms without parentheses, is read with that
operand.  If the mnemonic takes some mode of the form that has room for the operand, the mode that
is read is the shortest of those, and the instruction has an encoding of that size; if it takes
none, the mode is refused. -/
theorem parse_shortest (hpass : c.pass = .second) {m : Mnemonic} (hm : m.isBranch = false)
    {form : OperandForm} (h : Written c r m form v) (hlow : 0 ≤ v.toInt)
    (hhigh : v.toInt ≤ 0xffff) :
    ∃ mode r', parse c r = .ok (.instruction ⟨m, mode, v⟩) r' ∧
      ((∃ other ∈ form.candidates v, m.modes.contains other = true) →
        m.Shortest (form.candidates v) mode ∧
        ∀ pass address, ∃ bytes, Instruction.encode pass address ⟨m, mode, v⟩ = .ok bytes ∧
          bytes.length = mode.size) ∧
      ((∀ other ∈ form.candidates v, m.modes.contains other = false) →
        ∀ pass address, Instruction.encode pass address ⟨m, mode, v⟩ = .error .illegalMode) := by
  have hword : fitsWord v = true := fitsWord_iff.mpr ⟨hlow, hhigh⟩
  obtain ⟨r', hparse⟩ := parse_of_written hpass hm h hword
  have hmode := Mnemonic.pageMode_ne_relative m form hword
  refine ⟨_, r', hparse, fun htaken => ?_, fun hnone pass address => ?_⟩
  · have hshortest := Mnemonic.shortest_pageMode hword htaken
    exact ⟨hshortest, Instruction.exists_encode hmode hshortest.permitted⟩
  · exact (Instruction.encode_eq_error_iff hmode).mpr
      ⟨rfl, hnone _ (Mnemonic.pageMode_mem_candidates hword)⟩

/-- There is no zero-page mode of `sta` that is indexed by `y`, and no indexed `jmp`. -/
theorem parse_shortest_indexed :
    (∃ r', parse (.plain .second 0x1000)
        (.start ⟨"main", none, Byte.ofChars "sta 15+1,y".toList⟩ .empty) =
      .ok (.instruction ⟨.sta, .absoluteY, 16⟩) r') ∧
    ∃ mode r', parse (.plain .second 0x1000)
        (.start ⟨"main", none, Byte.ofChars "jmp 4,x".toList⟩ .empty) =
      .ok (.instruction ⟨.jmp, mode, 4⟩) r' ∧
      Instruction.encode .second 0x1000 ⟨.jmp, mode, 4⟩ = .error .illegalMode := by
  have hstore := Written.of_value (c := .plain .second 0x1000) (m := .sta) (f := .indexedY)
    (r := .start ⟨"main", none, Byte.ofChars "sta 15+1,y".toList⟩ .empty) (v := 16)
    (b := ⟨Byte.ofChars " 15+1,y".toList, ⟨1, 4⟩, false, ⟨1, 1⟩⟩)
    (d := ⟨Byte.ofChars ",y".toList, ⟨1, 9⟩, false, ⟨1, 1⟩⟩) (e := ⟨[], ⟨1, 11⟩, false, ⟨1, 1⟩⟩)
    rfl rfl (by decide) (by decide +kernel)
    (.cons (t := ⟨.comma, ⟨1, 9⟩⟩) rfl (.cons (t := ⟨.register .y, ⟨1, 10⟩⟩) rfl (.nil _)))
    ⟨⟨.endOfInput, ⟨1, 11⟩⟩, _, rfl, rfl⟩
  have hjump := Written.of_value (c := .plain .second 0x1000) (m := .jmp) (f := .indexedX)
    (r := .start ⟨"main", none, Byte.ofChars "jmp 4,x".toList⟩ .empty) (v := 4)
    (b := ⟨Byte.ofChars " 4,x".toList, ⟨1, 4⟩, false, ⟨1, 1⟩⟩)
    (d := ⟨Byte.ofChars ",x".toList, ⟨1, 6⟩, false, ⟨1, 1⟩⟩) (e := ⟨[], ⟨1, 8⟩, false, ⟨1, 1⟩⟩)
    rfl rfl (by decide) (by decide +kernel)
    (.cons (t := ⟨.comma, ⟨1, 6⟩⟩) rfl (.cons (t := ⟨.register .x, ⟨1, 7⟩⟩) rfl (.nil _)))
    ⟨⟨.endOfInput, ⟨1, 8⟩⟩, _, rfl, rfl⟩
  constructor
  · obtain ⟨mode, r', hparse, htaken, -⟩ :=
      parse_shortest rfl (by decide) hstore (by decide) (by decide)
    obtain ⟨⟨hmem, hpermitted, -⟩, -⟩ := htaken ⟨.absoluteY, by decide, by decide⟩
    rcases OperandForm.mem_candidates _ |>.mp hmem with rfl | ⟨-, rfl⟩
    · exact ⟨r', hparse⟩
    · exact absurd hpermitted (by decide)
  · obtain ⟨mode, r', hparse, -, hrefused⟩ :=
      parse_shortest rfl (by decide) hjump (by decide) (by decide)
    exact ⟨mode, r', hparse, hrefused (by decide) .second 0x1000⟩

end Statement

end Assembler6502
