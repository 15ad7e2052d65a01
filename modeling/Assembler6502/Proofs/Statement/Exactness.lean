/-
No number of the second pass is cut off.

The bytes of instructions and data are cut out of 32-bit numbers.  The second
pass looks at each number before it comes to that, and refuses those that do not
fit, so what is cut off is always zero.

* **`Evaluates`** — what stands ahead is evaluated to a number;
* **`Sequence`** — elements are read one by one, up to the end of the line;
* **`ByteItem`**, **`WordItem`** — an element of data is the number that it is
  evaluated to, or quoted text;
* **`fits_of_parseOperand`** — an operand fits its mode;
* **`parse_unabridged`** — a statement of the second pass holds its numbers in
  full.

Design notes.  Looking ahead may note names, so a number is evaluated in scopes
that have the same values, not in the same scopes.
-/
import Assembler6502.Proofs.Machine.Encoding
import Assembler6502.Proofs.Statement.Width

namespace Assembler6502

open Assembler6502.Parser

/-! ### Widths -/

theorem fitsByte_iff {v : Int32} : fitsByte v = true ↔ 0 ≤ v.toInt ∧ v.toInt ≤ 0xff := by
  rw [fitsByte, Bool.and_eq_true, decide_eq_true_eq, decide_eq_true_eq, Int32.le_iff_toInt_le,
    Int32.le_iff_toInt_le]
  exact Iff.rfl

theorem fitsWord_iff {v : Int32} : fitsWord v = true ↔ 0 ≤ v.toInt ∧ v.toInt ≤ 0xffff := by
  rw [fitsWord, Bool.and_eq_true, decide_eq_true_eq, decide_eq_true_eq, Int32.le_iff_toInt_le,
    Int32.le_iff_toInt_le]
  exact Iff.rfl

/-- A word without a high byte is a byte. -/
theorem fitsByte_of_page {v : Int32} (hword : fitsWord v = true) (hpage : v &&& 0xff00 = 0) :
    fitsByte v = true := by
  have hbelow : ¬ AboveZeroPage v := fun habove => page_ne_zero habove hword hpage
  have hsmall : v.toInt < 0x100 := by
    rw [AboveZeroPage, Int32.le_iff_toInt_le] at hbelow
    have hpage : (0x100 : Int32).toInt = 0x100 := rfl
    omega
  rw [fitsWord_iff] at hword
  rw [fitsByte_iff]
  omega

/-- The mode that is chosen for a word has room for it. -/
theorem Mnemonic.fits_pageMode (m : Mnemonic) (short : Mode) (hshort : short.widened.isSome = true)
    {v : Int32} (hword : fitsWord v = true) : Instruction.Fits ⟨m, m.pageMode short v, v⟩ := by
  obtain ⟨long, hlong⟩ := Option.isSome_iff_exists.mp hshort
  have hbounds : short.bound = 0xff ∧ long.bound = 0xffff := by
    cases short <;> cases hlong <;> exact ⟨rfl, rfl⟩
  unfold pageMode
  rw [hlong]
  dsimp only
  split
  · have hrange := fitsWord_iff.mp hword
    rw [← hbounds.2] at hrange
    exact hrange
  · next hpage =>
    have hzero : v &&& 0xff00 = 0 := Decidable.not_not.mp (not_or.mp hpage).1
    have hrange := fitsByte_iff.mp (fitsByte_of_page hword hzero)
    rw [← hbounds.1] at hrange
    exact hrange

/-! ### Looking ahead -/

/-- A reading from which nothing was read, though names may have been noted. -/
structure Reading.Peeked (r r' : Reading) : Prop extends r.SameValues r' where
  source : r'.source = r.source
  cursor : r'.cursor = r.cursor

theorem Reading.Peeked.refl (r : Reading) : r.Peeked r :=
  ⟨⟨rfl, fun _ _ => rfl⟩, rfl, rfl⟩

theorem Reading.Peeked.trans {r s t : Reading} (h : r.Peeked s) (h' : s.Peeked t) : r.Peeked t where
  path := h'.path.trans h.path
  definitionAt scope name := (h'.definitionAt scope name).trans (h.definitionAt scope name)
  source := h'.source.trans h.source
  cursor := h'.cursor.trans h.cursor

theorem Parser.peeked_of_peek {r r' : Reading} {t : Token Name} (h : peek r = .ok t r') :
    r.Peeked r' := by
  have hsame : r.SameValues r' := Follows.of_ok Reading.kept_sameValues.peek h
  obtain ⟨token, cursor, -, -, rfl⟩ := peek_eq_ok h
  exact ⟨hsame, rfl, rfl⟩

/-- What is read from a place, if it can be read. -/
def Parser.result? {α : Type} (p : Parser α) (r : Reading) : Option α :=
  match p r with
  | .ok x _ => some x
  | .error _ _ => none

theorem Parser.exists_of_result? {α : Type} {p : Parser α} {r : Reading} {x : α}
    (h : result? p r = some x) : ∃ r', p r = .ok x r' := by
  unfold result? at h
  split at h
  · next r' hp =>
    cases h
    exact ⟨r', hp⟩
  · cases h

namespace Statement

variable {c : Context} {r r' : Reading}

/-- What stands ahead is evaluated in the second pass: an expression, or a reference to an anonymous
label. -/
inductive Evaluates (c : Context) (r : Reading) : Int32 → Reading → Prop where
  | expression {r₁ r' : Reading} {value : Value} (ahead : r.Peeked r₁)
      (parsed : Value.parse c r₁ = .ok value r') : Evaluates c r value.number r'
  | forward {r₁ r' : Reading} {t : Token Name} {mark : Int32} (ahead : r.Peeked r₁)
      (read : next r₁ = .ok t r') (lexeme : t.lexeme = .forward)
      (resolved : AnonymousLabels.resolveForward c.anonymous c.address = some mark) :
      Evaluates c r mark r'
  | backward {r₁ r' : Reading} {t : Token Name} {mark : Int32} (ahead : r.Peeked r₁)
      (read : next r₁ = .ok t r') (lexeme : t.lexeme = .backward)
      (resolved : AnonymousLabels.resolveBackward c.anonymous c.address = some mark) :
      Evaluates c r mark r'

theorem Evaluates.of_peeked {r₁ : Reading} {v : Int32} (h : Evaluates c r₁ v r')
    (hpeeked : r.Peeked r₁) : Evaluates c r v r' := by
  cases h with
  | expression ahead parsed => exact .expression (hpeeked.trans ahead) parsed
  | forward ahead read lexeme resolved =>
    exact .forward (hpeeked.trans ahead) read lexeme resolved
  | backward ahead read lexeme resolved =>
    exact .backward (hpeeked.trans ahead) read lexeme resolved

theorem reference_eq_ok (hpass : c.pass = .second) {resolve : List Int32 → Int32 → Option Int32}
    {e : StatementError} {value : Value} (h : reference c resolve e r = .ok value r') :
    resolve c.anonymous c.address = some value.number ∧ r' = r := by
  rw [reference, hpass] at h
  cases hmark : resolve c.anonymous c.address with
  | none =>
    rw [hmark] at h
    cases h
  | some mark =>
    rw [hmark] at h
    cases h
    exact ⟨rfl, rfl⟩

theorem operand_evaluates (hpass : c.pass = .second) {value : Value}
    (h : operand c r = .ok (.inl value) r') : Evaluates c r value.number r' := by
  obtain ⟨t, r₁, hpeek, h⟩ := bind_eq_ok h
  have hpeeked := peeked_of_peek hpeek
  by_cases hstarts : t.lexeme.startsExpression = true
  · rw [if_pos hstarts] at h
    obtain ⟨value', r₂, hvalue, h⟩ := bind_eq_ok h
    cases h
    exact .expression hpeeked hvalue
  · rw [if_neg hstarts] at h
    obtain ⟨t', r₂, hnext, h⟩ := bind_eq_ok h
    generalize hlexeme : t'.lexeme = lexeme at h
    split at h
    · obtain ⟨value', r₃, hvalue, h⟩ := bind_eq_ok h
      cases h
      obtain ⟨hmark, rfl⟩ := reference_eq_ok hpass hvalue
      exact .forward hpeeked hnext hlexeme hmark
    · obtain ⟨value', r₃, hvalue, h⟩ := bind_eq_ok h
      cases h
      obtain ⟨hmark, rfl⟩ := reference_eq_ok hpass hvalue
      exact .backward hpeeked hnext hlexeme hmark
    · cases h

theorem expectValue_evaluates (hpass : c.pass = .second) {what : String} {value : Value}
    (h : expectValue c what r = .ok value r') : Evaluates c r value.number r' := by
  obtain ⟨x, r₁, hoperand, h⟩ := bind_eq_ok h
  cases x with
  | inl v =>
    cases h
    exact operand_evaluates hpass hoperand
  | inr _ => cases h

theorem sequenceValue_evaluates (hpass : c.pass = .second) {v : Int32}
    (h : sequenceValue c r = .ok v r') : Evaluates c r v r' := by
  obtain ⟨t, r₁, hpeek, h⟩ := bind_eq_ok h
  have hpeeked := peeked_of_peek hpeek
  split at h
  · obtain ⟨value, r₂, hvalue, h⟩ := bind_eq_ok h
    cases h
    exact .expression hpeeked hvalue
  · obtain ⟨value, r₂, hvalue, h⟩ := bind_eq_ok h
    cases h
    exact (expectValue_evaluates hpass hvalue).of_peeked hpeeked

/-- In the second pass what stands behind a check is read only if the number fits. -/
theorem fits_of_checkWidth (hpass : c.pass = .second) {fits : Bool} {e : StatementError} {α : Type}
    {rest : Unit → Parser α} {x : α} (h : (checkWidth c fits e >>= rest) r = .ok x r') :
    fits = true ∧ rest () r = .ok x r' := by
  rw [checkWidth, hpass] at h
  cases fits with
  | true => exact ⟨rfl, h⟩
  | false => cases h

/-! ### Data -/

/-- Elements with commas between them up to the end of the line, where `item` says what an element
gives. -/
inductive Sequence {α : Type} (item : Reading → List α → Reading → Prop) :
    Reading → List α → Reading → Prop where
  | last {r r₁ r' : Reading} {x : List α} (first : item r x r₁)
      (ends : moreInSequence r₁ = .ok false r') : Sequence item r x r'
  | more {r r₁ r₂ r' : Reading} {x rest : List α} (first : item r x r₁)
      (comma : moreInSequence r₁ = .ok true r₂) (others : Sequence item r₂ rest r') :
      Sequence item r (x ++ rest) r'

/-- An element of bytes: quoted text in its character set, or a number, which is the byte. -/
inductive ByteItem (c : Context) (r : Reading) : List UInt8 → Reading → Prop where
  | quoted {r₁ r' : Reading} {t t' : Token Name} {text : List UInt8} (peeked : peek r = .ok t r₁)
      (lexeme : t.lexeme = .quoted text) (read : next r₁ = .ok t' r') :
      ByteItem c r (c.characters.codes text) r'
  | number {r' : Reading} {v : Int32} {byte : UInt8} (value : Evaluates c r v r')
      (whole : (byte.toNat : Int) = v.toInt) : ByteItem c r [byte] r'

/-- An element of words: a number, which is the word. -/
inductive WordItem (c : Context) (r : Reading) : List UInt16 → Reading → Prop where
  | number {r' : Reading} {v : Int32} {word : UInt16} (value : Evaluates c r v r')
      (whole : (word.toNat : Int) = v.toInt) : WordItem c r [word] r'

theorem byteElement_item (hpass : c.pass = .second) {data : List UInt8}
    (h : byteElement c r = .ok data r') : ByteItem c r data r' := by
  obtain ⟨t, r₁, hpeek, h⟩ := bind_eq_ok h
  generalize hlexeme : t.lexeme = lexeme at h
  split at h
  · next text =>
    obtain ⟨t', r₂, hnext, h⟩ := bind_eq_ok h
    cases h
    exact .quoted hpeek hlexeme hnext
  · obtain ⟨v, r₂, hvalue, h⟩ := bind_eq_ok h
    obtain ⟨hfits, h⟩ := fits_of_checkWidth hpass h
    cases h
    have hrange := fitsByte_iff.mp hfits
    have hlow := Instruction.toNat_lowByte hrange.1
    exact .number ((sequenceValue_evaluates hpass hvalue).of_peeked (peeked_of_peek hpeek))
      (by omega)

theorem wordElement_item (hpass : c.pass = .second) {data : List UInt16}
    (h : wordElement c r = .ok data r') : WordItem c r data r' := by
  obtain ⟨v, r₁, hvalue, h⟩ := bind_eq_ok h
  obtain ⟨hfits, h⟩ := fits_of_checkWidth hpass h
  cases h
  have hrange := fitsWord_iff.mp hfits
  have hv := Instruction.toNat_toUInt32 hrange.1
  have hword : v.toUInt32.toUInt16.toNat = v.toUInt32.toNat % 65536 := UInt32.toNat_toUInt16 _
  exact .number (sequenceValue_evaluates hpass hvalue) (by omega)

/-- A comma takes up a byte. -/
theorem moreInSequence_length_lt (h : moreInSequence r = .ok true r') :
    r'.cursor.rest.length < r.cursor.rest.length := by
  obtain ⟨t, r₁, hnext, h⟩ := bind_eq_ok h
  have hlength := r.cursor.next_length_lt
  obtain ⟨token, hcursor, rfl, -⟩ := next_eq_ok hnext
  rw [hcursor] at hlength
  rcases hlength with ⟨p, hend⟩ | hlt
  · cases hend
    cases h
  · generalize (token.lexeme.bind r.scopes).1 = lexeme at h
    cases lexeme with
    | comma =>
      cases h
      exact hlt
    | _ => cases h

/-- There are fewer commas than bytes, so the elements do not run out before the end of the line. -/
theorem sequenceOf_eq_ok {α : Type} {element : Parser (List α)}
    {item : Reading → List α → Reading → Prop}
    (hitem : ∀ {r r' : Reading} {x : List α}, element r = .ok x r' → item r x r')
    (hforward : Follows Reading.Forward element) {n : Nat} {data : List α}
    (hn : r.cursor.rest.length < n) (h : sequenceOf element n r = .ok data r') :
    Sequence item r data r' := by
  induction n generalizing r data with
  | zero => exact absurd hn (Nat.not_lt_zero _)
  | succ n ih =>
    obtain ⟨x, r₁, helement, h⟩ := bind_eq_ok h
    obtain ⟨more, r₂, hmore, h⟩ := bind_eq_ok h
    cases more with
    | false =>
      cases h
      exact .last (hitem helement) hmore
    | true =>
      obtain ⟨rest, r₃, hrest, h⟩ := bind_eq_ok h
      cases h
      have hfirst := (hforward.of_ok helement).length_le
      have hcomma := moreInSequence_length_lt hmore
      exact .more (hitem helement) hmore (ih (by omega) hrest)

theorem sequence_eq_ok {α : Type} {element : Parser (List α)}
    {item : Reading → List α → Reading → Prop}
    (hitem : ∀ {r r' : Reading} {x : List α}, element r = .ok x r' → item r x r')
    (hforward : Follows Reading.Forward element) {data : List α}
    (h : sequence element r = .ok data r') : Sequence item r data r' := by
  obtain ⟨n, _, hn, h⟩ := bind_eq_ok h
  cases hn
  exact sequenceOf_eq_ok hitem hforward (Nat.lt_succ_self _) h

/-! ### Operands -/

theorem fits_of_directOperand (hpass : c.pass = .second) {m : Mnemonic} {v : Int32} {o : Operand}
    (h : directOperand c m v r = .ok o r') : Instruction.Fits ⟨m, o.1, o.2⟩ := by
  obtain ⟨hword, h⟩ := fits_of_checkWidth hpass h
  obtain ⟨t, r₂, hnext, h⟩ := bind_eq_ok h
  have hend :
      Instruction.Fits ⟨m, if m.isBranch then .relative else m.pageMode .zeroPage v, v⟩ := by
    split
    · exact fitsWord_iff.mp hword
    · exact m.fits_pageMode .zeroPage rfl hword
  generalize t.lexeme = lexeme at h
  split at h
  · cases h
    exact hend
  · cases h
    exact hend
  · obtain ⟨t', r₃, hregister, h⟩ := bind_eq_ok h
    generalize t'.lexeme = register at h
    split at h
    · obtain ⟨_, r₄, -, h⟩ := bind_eq_ok h
      cases h
      exact m.fits_pageMode .zeroPageX rfl hword
    · obtain ⟨_, r₄, -, h⟩ := bind_eq_ok h
      cases h
      exact m.fits_pageMode .zeroPageY rfl hword
    · cases h
  · cases h

/-- An operand in parentheses is indirect. -/
theorem indirectMode_eq_ok {mode : Mode} (h : indirectMode r = .ok mode r') :
    mode = .indirectX ∨ mode = .indirectY ∨ mode = .indirect := by
  obtain ⟨t, r₁, -, h⟩ := bind_eq_ok h
  generalize t.lexeme = lexeme at h
  split at h
  · obtain ⟨_, r₂, -, h⟩ := bind_eq_ok h
    obtain ⟨_, r₃, -, h⟩ := bind_eq_ok h
    cases h
    exact .inl rfl
  · obtain ⟨t', r₂, -, h⟩ := bind_eq_ok h
    split at h
    · obtain ⟨_, r₃, -, h⟩ := bind_eq_ok h
      obtain ⟨_, r₄, -, h⟩ := bind_eq_ok h
      cases h
      exact .inr (.inl rfl)
    · cases h
      exact .inr (.inr rfl)
  · cases h

theorem fits_of_indirectOperand (hpass : c.pass = .second) {o : Operand}
    (h : indirectOperand c r = .ok o r') (m : Mnemonic) : Instruction.Fits ⟨m, o.1, o.2⟩ := by
  obtain ⟨value, r₁, -, h⟩ := bind_eq_ok h
  obtain ⟨hword, h⟩ := fits_of_checkWidth hpass h
  obtain ⟨mode, r₃, hmode, h⟩ := bind_eq_ok h
  obtain ⟨_, r₄, -, h⟩ := bind_eq_ok h
  split at h
  · -- the operand of an indexed form is looked at again
    next hindexed =>
    obtain ⟨hbyte, h⟩ := fits_of_checkWidth hpass h
    cases h
    rcases indirectMode_eq_ok hmode with rfl | rfl | rfl
    · exact fitsByte_iff.mp hbyte
    · exact fitsByte_iff.mp hbyte
    · exact absurd rfl hindexed
  · next hplain =>
    cases h
    rw [Decidable.not_not.mp hplain]
    exact fitsWord_iff.mp hword

theorem fits_of_immediateOperand (hpass : c.pass = .second) {o : Operand}
    (h : immediateOperand c r = .ok o r') (m : Mnemonic) : Instruction.Fits ⟨m, o.1, o.2⟩ := by
  obtain ⟨value, r₁, -, h⟩ := bind_eq_ok h
  obtain ⟨hbyte, h⟩ := fits_of_checkWidth hpass h
  obtain ⟨_, r₃, -, h⟩ := bind_eq_ok h
  cases h
  exact fitsByte_iff.mp hbyte

/-- In the second pass every operand fits the mode that it is read with. -/
theorem fits_of_parseOperand (hpass : c.pass = .second) {m : Mnemonic} {o : Operand}
    (h : parseOperand c m r = .ok o r') : Instruction.Fits ⟨m, o.1, o.2⟩ := by
  have hzero : ∀ mode : Mode, mode = .accumulator ∨ mode = .implied →
      Instruction.Fits ⟨m, mode, 0⟩ := by
    rintro mode (rfl | rfl)
    · exact ⟨Int.le_refl _, Int.le_refl _⟩
    · exact ⟨Int.le_refl _, Int.le_refl _⟩
  have hnone : Instruction.Fits ⟨m, if m.isShift then .accumulator else .implied, 0⟩ := by
    split
    · exact hzero _ (.inl rfl)
    · exact hzero _ (.inr rfl)
  obtain ⟨x, r₁, hoperand, h⟩ := bind_eq_ok h
  split at h
  · exact fits_of_directOperand hpass h
  · cases h
    exact hnone
  · cases h
    exact hnone
  · obtain ⟨_, r₂, -, h⟩ := bind_eq_ok h
    cases h
    exact hzero _ (.inl rfl)
  · exact fits_of_immediateOperand hpass h m
  · exact fits_of_indirectOperand hpass h m
  · cases h

/-! ### Statements -/

theorem parseOrigin_word (hpass : c.pass = .second) {address : Int32}
    (h : parseOrigin c r = .ok (.origin address) r') :
    0 ≤ address.toInt ∧ address.toInt ≤ 0xffff := by
  obtain ⟨value, r₁, -, h⟩ := bind_eq_ok h
  obtain ⟨hword, h⟩ := fits_of_checkWidth hpass h
  obtain ⟨_, r₃, -, h⟩ := bind_eq_ok h
  cases h
  exact fitsWord_iff.mp hword

theorem parseNamed_word (hpass : c.pass = .second) {name : Name} {column : Nat} {text : String}
    {v : Int32} {relocatable : Bool}
    (h : parseNamed c name column r = .ok (.assign text v relocatable) r') :
    0 ≤ v.toInt ∧ v.toInt ≤ 0xffff := by
  obtain ⟨t, r₁, -, h⟩ := bind_eq_ok h
  split at h
  · split at h
    · cases h
    · obtain ⟨_, r₂, -, h⟩ := bind_eq_ok h
      obtain ⟨value, r₃, -, h⟩ := bind_eq_ok h
      obtain ⟨hword, h⟩ := fits_of_checkWidth hpass h
      obtain ⟨_, r₅, -, h⟩ := bind_eq_ok h
      cases h
      exact fitsWord_iff.mp hword
  · split at h
    · cases h
    · obtain ⟨_, r₂, -, h⟩ := bind_eq_ok h
      cases h

/-- An origin of the second pass is a word. -/
theorem parse_origin_word (hpass : c.pass = .second) {address : Int32}
    (h : Statement.parse c r = .ok (.origin address) r') :
    0 ≤ address.toInt ∧ address.toInt ≤ 0xffff := by
  obtain ⟨⟨lexeme, p⟩, r₁, -, h⟩ := bind_eq_ok h
  have hbegins := parseFrom_begins h
  cases hbegins with
  | origin => exact parseOrigin_word hpass h
  | assignedOrigin =>
    obtain ⟨_, r₂, -, h⟩ := bind_eq_ok h
    exact parseOrigin_word hpass h

/-- A statement holds its numbers in full, read from one place to another in a context.  Data stand
behind the first token of the statement. -/
def Unabridged (c : Context) (r r' : Reading) : Statement → Prop
  | .instruction i => ∀ (address : Int32) (bytes : List UInt8), 0 ≤ address.toInt →
      address.toInt ≤ 0x80000000 - 131 → i.encode .second address = .ok bytes →
      i.Exact address bytes
  | .bytes data => ∃ t r₁, firstToken r = .ok t r₁ ∧ Sequence (ByteItem c) r₁ data r'
  | .words data => ∃ t r₁, firstToken r = .ok t r₁ ∧ Sequence (WordItem c) r₁ data r'
  | .origin v | .assign _ v _ => 0 ≤ v.toInt ∧ v.toInt ≤ 0xffff
  | _ => True

/-- A statement that the second pass reads holds its numbers in full. -/
theorem parse_unabridged (hpass : c.pass = .second) {statement : Statement}
    (h : Statement.parse c r = .ok statement r') : statement.Unabridged c r r' := by
  have hparse := h
  obtain ⟨⟨lexeme, p⟩, r₁, hfirst, h⟩ := bind_eq_ok h
  have hbegins := parseFrom_begins h
  cases hbegins with
  | instruction =>
    obtain ⟨o, r₂, hoperand, h⟩ := bind_eq_ok h
    cases h
    intro address bytes haddress hroom hencode
    exact Instruction.exact_of_encode (fits_of_parseOperand hpass hoperand) haddress (by omega)
      hencode
  | bytes =>
    obtain ⟨data, r₂, hdata, h⟩ := bind_eq_ok h
    cases h
    exact ⟨_, r₁, hfirst, sequence_eq_ok (byteElement_item hpass)
      (byteElement_grammatical.follows Reading.kept_forward) hdata⟩
  | words =>
    obtain ⟨data, r₂, hdata, h⟩ := bind_eq_ok h
    cases h
    exact ⟨_, r₁, hfirst, sequence_eq_ok (wordElement_item hpass)
      (wordElement_grammatical.follows Reading.kept_forward) hdata⟩
  | origin => exact parse_origin_word hpass hparse
  | assignedOrigin => exact parse_origin_word hpass hparse
  | assign => exact parseNamed_word hpass h
  | _ => trivial

/-- A branch as far back as branches reach, and text with the largest byte behind it. -/
theorem parse_unabridged_limits :
    (∃ r r', Statement.parse (.plain .second 0x1000) r =
        .ok (.instruction ⟨.bne, .relative, 0xf82⟩) r' ∧
      Instruction.Exact 0x1000 ⟨.bne, .relative, 0xf82⟩ [0xd0, 0x80]) ∧
    ∃ r r' t r₁, Statement.parse (.plain .second 0x1000) r = .ok (.bytes [0x61, 0xff]) r' ∧
      firstToken r = .ok t r₁ ∧
      Sequence (ByteItem (.plain .second 0x1000)) r₁ [0x61, 0xff] r' := by
  constructor
  · obtain ⟨r', hparse⟩ := exists_of_result?
      (show result? (Statement.parse (.plain .second 0x1000))
            (.start ⟨"main", none, Byte.ofChars " bne $0f82\n".toList⟩ .empty) =
          some (.instruction ⟨.bne, .relative, 0xf82⟩) by decide +kernel)
    exact ⟨_, r', hparse, parse_unabridged rfl hparse _ _ (by decide) (by decide) rfl⟩
  · obtain ⟨r', hparse⟩ := exists_of_result?
      (show result? (Statement.parse (.plain .second 0x1000))
            (.start ⟨"main", none, Byte.ofChars ".byte \"a\",$ff\n".toList⟩ .empty) =
          some (.bytes [0x61, 0xff]) by decide +kernel)
    obtain ⟨t, r₁, hfirst, hdata⟩ := parse_unabridged rfl hparse
    exact ⟨_, r', t, r₁, hparse, hfirst, hdata⟩

end Statement

end Assembler6502
