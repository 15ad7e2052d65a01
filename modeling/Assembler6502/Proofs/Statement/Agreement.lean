/-
Reading the same statement twice.

The first token of a statement settles its kind, and no token depends on what
the names are bound to.  So where both passes read a statement, they read the
same one: its kind, its names, its mnemonic and the number of its data agree.
Operands may differ, and with them the width of an instruction.

* **`Statement.Alike`** — what two readings of a statement share;
* **`Statement.parse_agree`** — both passes read statements that are alike and
  stop at the same place;
* **`Mode.Kin`** — modes of two readings are the same, or one is the absolute
  form of the other.
-/
import Assembler6502.Proofs.Expression.Agreement

namespace Assembler6502

/-- Two modes that one written operand can have: the same, or one the absolute form of the
other. -/
def Mode.Kin (a b : Mode) : Prop :=
  a = b ∨ a.widened = some b ∨ b.widened = some a

theorem Mode.kin_refl (a : Mode) : a.Kin a :=
  .inl rfl

theorem Mnemonic.pageMode_eq (m : Mnemonic) (short : Mode) (v : Int32) :
    m.pageMode short v = short ∨ short.widened = some (m.pageMode short v) := by
  unfold pageMode
  cases h : short.widened with
  | none => exact .inl rfl
  | some long =>
    dsimp only
    split
    · exact .inr rfl
    · exact .inl rfl

theorem Mnemonic.pageMode_kin (m : Mnemonic) (short : Mode) (v w : Int32) :
    (m.pageMode short v).Kin (m.pageMode short w) := by
  rcases m.pageMode_eq short v with hv | hv <;> rcases m.pageMode_eq short w with hw | hw
  · rw [hv, hw]
    exact Mode.kin_refl _
  · rw [hv]
    exact .inr (.inl hw)
  · rw [hw]
    exact .inr (.inr hv)
  · rw [hv, Option.some.injEq] at hw
    rw [hw]
    exact Mode.kin_refl _

/-- What two readings of a statement share. -/
def Statement.Alike : Statement → Statement → Prop
  | .instruction i, .instruction j => i.mnemonic = j.mnemonic ∧ i.mode.Kin j.mode
  | .origin _, .origin _ => True
  | .includeFile a, .includeFile b => a = b
  | .anonymousLabel, .anonymousLabel => True
  | .bytes a, .bytes b => a.length = b.length
  | .words a, .words b => a.length = b.length
  | .label a, .label b => a = b
  | .assign a _ _, .assign b _ _ => a = b
  | .openScope a, .openScope b => a = b
  | .closeScope, .closeScope => True
  | .undefined, .undefined => True
  | .endOfInput, .endOfInput => True
  | _, _ => False

/-- The pairs of statements that are alike, kind by kind. -/
inductive Statement.Alike.Kinds : Statement → Statement → Prop where
  | instruction {i j : Instruction} (mnemonic : i.mnemonic = j.mnemonic)
      (mode : i.mode.Kin j.mode) : Kinds (.instruction i) (.instruction j)
  | origin {x y : Int32} : Kinds (.origin x) (.origin y)
  | includeFile {name : String} : Kinds (.includeFile name) (.includeFile name)
  | anonymousLabel : Kinds .anonymousLabel .anonymousLabel
  | bytes {p q : List UInt8} (length : p.length = q.length) : Kinds (.bytes p) (.bytes q)
  | words {p q : List UInt16} (length : p.length = q.length) : Kinds (.words p) (.words q)
  | label {name : String} : Kinds (.label name) (.label name)
  | assign {name : String} {v w : Int32} {c d : Bool} : Kinds (.assign name v c) (.assign name w d)
  | openScope {name : String} : Kinds (.openScope name) (.openScope name)
  | closeScope : Kinds .closeScope .closeScope
  | undefined : Kinds .undefined .undefined
  | endOfInput : Kinds .endOfInput .endOfInput

-- All that follows from two statements being alike is proved by cases on `Kinds`.
theorem Statement.Alike.kinds {a b : Statement} (h : a.Alike b) : Alike.Kinds a b := by
  cases a with
  | instruction i =>
    cases b with
    | instruction j => exact .instruction h.1 h.2
    | _ => exact False.elim h
  | origin x =>
    cases b with
    | origin y => exact .origin
    | _ => exact False.elim h
  | includeFile name =>
    cases b with
    | includeFile _ => cases h; exact .includeFile
    | _ => exact False.elim h
  | anonymousLabel =>
    cases b with
    | anonymousLabel => exact .anonymousLabel
    | _ => exact False.elim h
  | bytes p =>
    cases b with
    | bytes q => exact .bytes h
    | _ => exact False.elim h
  | words p =>
    cases b with
    | words q => exact .words h
    | _ => exact False.elim h
  | label name =>
    cases b with
    | label _ => cases h; exact .label
    | _ => exact False.elim h
  | assign name _ _ =>
    cases b with
    | assign _ _ _ => cases h; exact .assign
    | _ => exact False.elim h
  | openScope name =>
    cases b with
    | openScope _ => cases h; exact .openScope
    | _ => exact False.elim h
  | closeScope =>
    cases b with
    | closeScope => exact .closeScope
    | _ => exact False.elim h
  | undefined =>
    cases b with
    | undefined => exact .undefined
    | _ => exact False.elim h
  | endOfInput =>
    cases b with
    | endOfInput => exact .endOfInput
    | _ => exact False.elim h

namespace Parser

variable {α β γ δ : Type} {Q : α → β → Prop}

/-- From readings abreast both parsers lead to readings abreast and to results that `Q` relates,
if both succeed. -/
def Alongside (Q : α → β → Prop) (p : Parser α) (q : Parser β) : Prop :=
  Agree Reading.Abreast p q fun a b r s => Q a b ∧ r.Abreast s

namespace Alongside

theorem pure {a : α} {b : β} (h : Q a b) : Alongside Q (pure a : Parser α) (pure b : Parser β) :=
  Agree.pure fun _ _ hrs => ⟨h, hrs⟩

theorem fail {e : StatementError} {q : Parser β} :
    Alongside Q (fail e : Parser α) q :=
  Agree.fail_left

theorem bind {M : γ → δ → Prop} {p : Parser γ} {q : Parser δ} {f : γ → Parser α}
    {g : δ → Parser β} (hp : Alongside M p q) (hf : ∀ a b, M a b → Alongside Q (f a) (g b)) :
    Alongside Q (p >>= f) (q >>= g) :=
  Agree.bind hp fun a b => Agree.intro (hf a b)

theorem next :
    Alongside (fun t u => t.lexeme.Alike (fun m n => m.text = n.text) u.lexeme ∧
      t.position = u.position) next next :=
  next_abreast

theorem peek :
    Alongside (fun t u => t.lexeme.Alike (fun m n => m.text = n.text) u.lexeme) peek peek :=
  peek_abreast

theorem remaining : Alongside (· = ·) remaining remaining :=
  Agree.remaining fun _ _ h => h.cursor

/-- A token whose lexeme is looked at for being `l` only. -/
theorem ite_lexeme {N : Name → Name → Prop} {a b l : Lexeme Name} (h : a.Alike N b)
    (hl : ∀ n, l ≠ .name n) {p p' : Parser α} {q q' : Parser β} (ht : Alongside Q p q)
    (he : Alongside Q p' q') :
    Alongside Q (if a = l then p else p') (if b = l then q else q') := by
  by_cases ha : a = l
  · rw [if_pos ha, if_pos ((h.eq_iff hl).mp ha)]
    exact ht
  · rw [if_neg ha, if_neg fun hb => ha ((h.eq_iff hl).mpr hb)]
    exact he

end Alongside

end Parser

open Assembler6502.Parser

variable {c d : Context}

theorem Value.parse_alongside : Alongside (fun _ _ => True) (Value.parse c) (Value.parse d) :=
  Value.parse_abreast.mono (fun _ _ h => h) fun _ _ _ _ h => ⟨trivial, h⟩

namespace Statement

/-! ### Pieces of statements -/

theorem checkWidth_agree {fits fits' : Bool} {e e' : StatementError} :
    Alongside (fun _ _ => True) (checkWidth c fits e) (checkWidth d fits' e') := by
  unfold checkWidth
  by_cases h : (c.pass = .second && !fits) = true
  · rw [if_pos h]
    exact .fail
  · rw [if_neg h]
    split
    · exact Agree.fail_right
    · exact .pure trivial

theorem expect_agree {l : Lexeme Name} {what : String} (hl : ∀ n, l ≠ .name n) :
    Alongside (fun _ _ => True) (expect l what) (expect l what) := by
  refine .bind .next fun t u h => ?_
  simp only [ne_eq, ite_not]
  exact .ite_lexeme h.1 hl (.pure trivial) .fail

theorem skipLineEnd_agree : Alongside (fun _ _ => True) skipLineEnd skipLineEnd := by
  refine .bind .peek fun t u h => .ite_lexeme (l := .lineEnd) h nofun ?_ (.pure trivial)
  exact .bind .next fun _ _ _ => .pure trivial

theorem endOfStatement_agree : Alongside (fun _ _ => True) endOfStatement endOfStatement := by
  refine .bind .peek fun t u h => ?_
  obtain ⟨a, _⟩ := t
  obtain ⟨b, _⟩ := u
  cases h with
  | name => exact .fail
  | same =>
    cases a with
    | lineEnd => exact .bind .next fun _ _ _ => .pure trivial
    | endOfInput => exact .pure trivial
    | _ => exact .fail

theorem reference_agree {resolve resolve' : List Int32 → Int32 → Option Int32}
    {e e' : StatementError} :
    Alongside (fun _ _ => True) (reference c resolve e) (reference d resolve' e') := by
  unfold reference
  split
  · split
    · exact .pure trivial
    · split
      · exact .pure trivial
      · exact Agree.fail_right
  · split
    · split
      · exact .pure trivial
      · split
        · exact .pure trivial
        · exact Agree.fail_right
    · exact .fail

/-- Both readings find a value, which `V` relates, or the same lexeme in its place. -/
def SameOperand (V : Value → Value → Prop) :
    Value ⊕ Lexeme Name → Value ⊕ Lexeme Name → Prop
  | .inl v, .inl w => V v w
  | .inr a, .inr b => a.Alike (fun m n => m.text = n.text) b
  | _, _ => False

theorem startsExpression_alike {N : Name → Name → Prop} {a b : Lexeme Name} (h : a.Alike N b) :
    a.startsExpression = b.startsExpression := by
  cases h <;> rfl

/-- A value is read where an expression starts or a reference stands, so it is left to say what
becomes of these: `S` is what an expression is read under, and `F` what a reference needs. -/
theorem operand_agree_of {P S : Reading → Reading → Prop} {F : Prop} {V : Value → Value → Prop}
    (hpeek : Agree P peek peek fun t u r s =>
      t.lexeme.Alike (fun m n => m.text = n.text) u.lexeme ∧ P r s ∧
        (t.lexeme.startsExpression = true → S r s))
    (hvalue : Agree S (Value.parse c) (Value.parse d) fun v w r s => V v w ∧ r.Abreast s)
    (hnext : Agree P next next fun t u r s =>
      (t.lexeme.Alike (fun m n => m.text = n.text) u.lexeme ∧
        (t.lexeme = .forward ∨ t.lexeme = .backward → F)) ∧ r.Abreast s)
    (hforward : F → Alongside V
      (reference c AnonymousLabels.resolveForward .unresolvedForward)
      (reference d AnonymousLabels.resolveForward .unresolvedForward))
    (hbackward : F → Alongside V
      (reference c AnonymousLabels.resolveBackward .unresolvedBackward)
      (reference d AnonymousLabels.resolveBackward .unresolvedBackward)) :
    Agree P (operand c) (operand d) fun x y r s => SameOperand V x y ∧ r.Abreast s := by
  refine .bind hpeek fun t u => .intro fun h => ?_
  by_cases hstart : t.lexeme.startsExpression = true
  · rw [if_pos hstart, if_pos (startsExpression_alike h ▸ hstart)]
    exact .bind (hvalue.mono (fun r s hP => hP.2 hstart) fun _ _ _ _ hV => hV) fun v w =>
      .intro fun hV => Alongside.pure hV
  · rw [if_neg hstart, if_neg fun hu => hstart (startsExpression_alike h ▸ hu)]
    refine .bind (hnext.mono (fun r s hP => hP.1) fun _ _ _ _ hQ => hQ) fun t u =>
      .intro fun ⟨h, hF⟩ => ?_
    obtain ⟨a, _⟩ := t
    obtain ⟨b, _⟩ := u
    cases h with
    | name hN => exact Alongside.pure (.name hN)
    | same hs =>
      cases a with
      | forward => exact Alongside.bind (hforward (hF (.inl rfl))) fun _ _ hV => .pure hV
      | backward => exact Alongside.bind (hbackward (hF (.inr rfl))) fun _ _ hV => .pure hV
      | _ => exact Alongside.pure (.same hs)

theorem operand_agree : Alongside (SameOperand fun _ _ => True) (operand c) (operand d) :=
  operand_agree_of (S := Reading.Abreast) (F := True)
    (peek_abreast.mono (fun _ _ h => h) fun _ _ _ _ h => ⟨h.1, h.2, fun _ => h.2⟩)
    Value.parse_alongside
    (next_abreast.mono (fun _ _ h => h) fun _ _ _ _ h => ⟨⟨h.1.1, fun _ => trivial⟩, h.2⟩)
    (fun _ => reference_agree) (fun _ => reference_agree)

theorem expectValue_agree_of {P : Reading → Reading → Prop} {V : Value → Value → Prop}
    {what : String}
    (ho : Agree P (operand c) (operand d) fun x y r s => SameOperand V x y ∧ r.Abreast s) :
    Agree P (expectValue c what) (expectValue d what) fun v w r s => V v w ∧ r.Abreast s := by
  refine .bind ho fun x y => .intro fun h => ?_
  cases x with
  | inr _ => exact .fail_left
  | inl v =>
    cases y with
    | inl w => exact Alongside.pure h
    | inr _ => exact h.elim

theorem expectValue_agree {what : String} :
    Alongside (fun _ _ => True) (expectValue c what) (expectValue d what) :=
  expectValue_agree_of operand_agree

/-! ### Directives -/

theorem parseOrigin_agree : Alongside Alike (parseOrigin c) (parseOrigin d) :=
  .bind expectValue_agree fun _ _ _ => .bind checkWidth_agree fun _ _ _ =>
    .bind endOfStatement_agree fun _ _ _ => .pure trivial

theorem parseInclude_agree : Alongside Alike parseInclude parseInclude := by
  refine .bind .next fun t u h => ?_
  obtain ⟨a, _⟩ := t
  obtain ⟨b, _⟩ := u
  obtain ⟨h, -⟩ := h
  cases h with
  | name => exact .fail
  | same =>
    cases a with
    | quoted text => exact .bind endOfStatement_agree fun _ _ _ => .pure rfl
    | _ => exact .fail

theorem parseOpenScope_agree : Alongside Alike parseOpenScope parseOpenScope := by
  refine .bind .next fun t u h => ?_
  obtain ⟨a, _⟩ := t
  obtain ⟨b, _⟩ := u
  obtain ⟨h, -⟩ := h
  cases h with
  | name hN => exact .bind endOfStatement_agree fun _ _ _ => .pure hN
  | same hs =>
    cases a with
    | name n => exact absurd rfl (hs n)
    | _ => exact .fail

theorem sequenceValue_agree :
    Alongside (fun _ _ => True) (sequenceValue c) (sequenceValue d) := by
  refine .bind .peek fun t u h => .ite_lexeme (l := .leftParen) h nofun ?_ ?_
  · exact .bind Value.parse_alongside fun _ _ _ => .pure trivial
  · exact .bind expectValue_agree fun _ _ _ => .pure trivial

theorem moreInSequence_agree : Alongside (· = ·) moreInSequence moreInSequence := by
  refine .bind .next fun t u h => ?_
  obtain ⟨a, _⟩ := t
  obtain ⟨b, _⟩ := u
  obtain ⟨h, -⟩ := h
  cases h with
  | name => exact .fail
  | same =>
    cases a with
    | comma => exact .pure rfl
    | lineEnd => exact .pure rfl
    | endOfInput => exact .pure rfl
    | _ => exact .fail

/-- The two elements have the same number of bytes: as many as the quoted text, or one. -/
theorem byteElement_agree :
    Alongside (fun a b => a.length = b.length) (byteElement c) (byteElement d) := by
  have hvalue : Alongside (fun a b => a.length = b.length)
      (do let value ← sequenceValue c
          checkWidth c (fitsByte value) .numberTooLarge
          return [Instruction.lowByte value])
      (do let value ← sequenceValue d
          checkWidth d (fitsByte value) .numberTooLarge
          return [Instruction.lowByte value]) :=
    .bind sequenceValue_agree fun _ _ _ => .bind checkWidth_agree fun _ _ _ => .pure rfl
  refine .bind .peek fun t u h => ?_
  obtain ⟨a, _⟩ := t
  obtain ⟨b, _⟩ := u
  cases h with
  | name => exact hvalue
  | same =>
    cases a with
    | quoted text =>
      refine .bind .next fun _ _ _ => .pure ?_
      rw [CharacterSet.length_codes, CharacterSet.length_codes]
    | _ => exact hvalue

theorem wordElement_agree :
    Alongside (fun a b => a.length = b.length) (wordElement c) (wordElement d) :=
  .bind sequenceValue_agree fun _ _ _ => .bind checkWidth_agree fun _ _ _ => .pure rfl

theorem sequenceOf_agree {α : Type} {p q : Parser (List α)}
    (h : Alongside (fun a b => a.length = b.length) p q) (n : Nat) :
    Alongside (fun a b => a.length = b.length) (sequenceOf p n) (sequenceOf q n) := by
  induction n with
  | zero => exact .pure rfl
  | succ n ih =>
    refine .bind h fun a b hab => .bind moreInSequence_agree fun more more' hmore => ?_
    subst hmore
    cases more with
    | false => exact .pure hab
    | true =>
      refine .bind ih fun a' b' hab' => .pure ?_
      rw [List.length_append, List.length_append, hab, hab']

theorem sequence_agree {α : Type} {p q : Parser (List α)}
    (h : Alongside (fun a b => a.length = b.length) p q) :
    Alongside (fun a b => a.length = b.length) (sequence p) (sequence q) := by
  refine .bind .remaining fun n m hn => ?_
  subst hn
  exact sequenceOf_agree h (n + 1)

/-- Whether a name is known as a label can make one reading fail, but not change what is read. -/
theorem parseNamed_agree {m n : Name} (h : m.text = n.text) (column : Nat) :
    Alongside Alike (parseNamed c m column) (parseNamed d n column) := by
  refine .bind .peek fun t u hassign => .ite_lexeme (l := .assign) hassign nofun ?_ ?_
  · split
    · exact .fail
    · split
      · exact Agree.fail_right
      · exact .bind .next fun _ _ _ => .bind expectValue_agree fun _ _ _ =>
          .bind checkWidth_agree fun _ _ _ => .bind endOfStatement_agree fun _ _ _ => .pure h
  · split
    · exact .fail
    · split
      · exact Agree.fail_right
      · exact .bind skipLineEnd_agree fun _ _ _ => .pure h

/-! ### Instructions -/

theorem directOperand_agree_of {K : Mode → Mode → Prop} {m : Mnemonic} {v w : Int32}
    (hpage : ∀ short, K (m.pageMode short v) (m.pageMode short w)) (hK : ∀ mode, K mode mode) :
    Alongside (fun o o' => K o.1 o'.1) (directOperand c m v) (directOperand d m w) := by
  refine .bind checkWidth_agree fun _ _ _ => .bind .next fun t u h => ?_
  have hdirect : K (if m.isBranch then .relative else m.pageMode .zeroPage v)
      (if m.isBranch then .relative else m.pageMode .zeroPage w) := by
    split
    · exact hK _
    · exact hpage .zeroPage
  obtain ⟨a, _⟩ := t
  obtain ⟨b, _⟩ := u
  obtain ⟨h, -⟩ := h
  cases h with
  | name => exact .fail
  | same =>
    cases a with
    | lineEnd => exact .pure hdirect
    | endOfInput => exact .pure hdirect
    | comma =>
      refine .bind .next fun t u h => ?_
      obtain ⟨a, _⟩ := t
      obtain ⟨b, _⟩ := u
      obtain ⟨h, -⟩ := h
      cases h with
      | name => exact .fail
      | same =>
        cases a with
        | register index =>
          cases index with
          | a => exact .fail
          | x => exact .bind endOfStatement_agree fun _ _ _ => .pure (hpage .zeroPageX)
          | y => exact .bind endOfStatement_agree fun _ _ _ => .pure (hpage .zeroPageY)
        | _ => exact .fail
    | _ => exact .fail

theorem indirectMode_agree : Alongside (· = ·) indirectMode indirectMode := by
  refine .bind .next fun t u h => ?_
  obtain ⟨a, _⟩ := t
  obtain ⟨b, _⟩ := u
  obtain ⟨h, -⟩ := h
  cases h with
  | name => exact .fail
  | same =>
    cases a with
    | comma =>
      exact .bind (expect_agree nofun) fun _ _ _ => .bind (expect_agree nofun) fun _ _ _ =>
        .pure rfl
    | rightParen =>
      refine .bind .peek fun t u h => .ite_lexeme (l := .comma) h nofun ?_ (.pure rfl)
      exact .bind .next fun _ _ _ => .bind (expect_agree nofun) fun _ _ _ => .pure rfl
    | _ => exact .fail

theorem indirectOperand_agree :
    Alongside (fun o o' => o.1 = o'.1) (indirectOperand c) (indirectOperand d) := by
  refine .bind expectValue_agree fun _ _ _ => .bind checkWidth_agree fun _ _ _ =>
    .bind indirectMode_agree fun mode mode' hmode => .bind endOfStatement_agree fun _ _ _ => ?_
  subst hmode
  split
  · exact .bind checkWidth_agree fun _ _ _ => .pure rfl
  · exact .pure rfl

theorem immediateOperand_agree :
    Alongside (fun o o' => o.1 = o'.1) (immediateOperand c) (immediateOperand d) :=
  .bind expectValue_agree fun _ _ _ => .bind checkWidth_agree fun _ _ _ =>
    .bind endOfStatement_agree fun _ _ _ => .pure rfl

/-- What stands in place of a value settles the mode, so it is left to say what becomes of
values. -/
theorem parseOperand_agree_of {P : Reading → Reading → Prop} {V : Value → Value → Prop}
    {K : Mode → Mode → Prop} (m : Mnemonic)
    (ho : Agree P (operand c) (operand d) fun x y r s => SameOperand V x y ∧ r.Abreast s)
    (hv : ∀ v w, V v w → Alongside (fun o o' => K o.1 o'.1) (directOperand c m v.number)
      (directOperand d m w.number)) (hK : ∀ mode, K mode mode) :
    Agree P (parseOperand c m) (parseOperand d m) fun o o' r s => K o.1 o'.1 ∧ r.Abreast s := by
  have hmono : ∀ {p q : Parser Operand}, Alongside (fun o o' => o.1 = o'.1) p q →
      Alongside (fun o o' => K o.1 o'.1) p q := by
    intro p q h
    refine h.mono (fun _ _ h => h) fun o o' _ _ hQ => ⟨?_, hQ.2⟩
    have hmode : o.1 = o'.1 := hQ.1
    show K o.1 o'.1
    rw [hmode]
    exact hK o'.1
  refine .bind ho fun x y => .intro fun hxy => ?_
  cases x with
  | inl v =>
    cases y with
    | inl w => exact hv v w hxy
    | inr _ => exact hxy.elim
  | inr a =>
    cases y with
    | inl _ => exact hxy.elim
    | inr b =>
      cases hxy with
      | name => exact Agree.fail_left
      | same =>
        cases a with
        | lineEnd => exact Alongside.pure (hK _)
        | endOfInput => exact Alongside.pure (hK _)
        | register r =>
          cases r with
          | a => exact Alongside.bind endOfStatement_agree fun _ _ _ => .pure (hK _)
          | _ => exact Agree.fail_left
        | operator op =>
          cases op with
          | hash => exact hmono immediateOperand_agree
          | _ => exact Agree.fail_left
        | leftParen => exact hmono indirectOperand_agree
        | _ => exact Agree.fail_left

theorem parseOperand_agree (m : Mnemonic) :
    Alongside (fun o o' => o.1.Kin o'.1) (parseOperand c m) (parseOperand d m) :=
  parseOperand_agree_of m operand_agree
    (fun v w _ => directOperand_agree_of (m.pageMode_kin · v.number w.number) Mode.kin_refl)
    Mode.kin_refl

/-! ### Statements -/

theorem parseFrom_agree {t u : Token Name}
    (h : t.lexeme.Alike (fun m n => m.text = n.text) u.lexeme) (hp : t.position = u.position) :
    Alongside Alike (parseFrom c t) (parseFrom d u) := by
  obtain ⟨a, p⟩ := t
  obtain ⟨b, q⟩ := u
  cases hp
  cases h with
  | name hN => exact parseNamed_agree hN p.column
  | same hs =>
    cases a with
    | name n => exact absurd rfl (hs n)
    | mnemonic m => exact .bind (parseOperand_agree m) fun _ _ h => .pure ⟨rfl, h⟩
    | endOfInput => exact .pure trivial
    | anonymous => exact .bind skipLineEnd_agree fun _ _ _ => .pure trivial
    | operator op =>
      cases op with
      | star => exact .bind (expect_agree nofun) fun _ _ _ => parseOrigin_agree
      | _ => exact .pure trivial
    | directive directive =>
      cases directive with
      | origin => exact parseOrigin_agree
      | bytes => exact .bind (sequence_agree byteElement_agree) fun _ _ h => .pure h
      | words => exact .bind (sequence_agree wordElement_agree) fun _ _ h => .pure h
      | includeFile => exact parseInclude_agree
      | openScope => exact parseOpenScope_agree
      | closeScope => exact .bind endOfStatement_agree fun _ _ _ => .pure trivial
    | _ => exact .pure trivial

theorem firstToken_agree :
    Alongside (fun t u => t.lexeme.Alike (fun m n => m.text = n.text) u.lexeme ∧
      t.position = u.position) firstToken firstToken :=
  .bind .next fun _ _ h => .ite_lexeme (l := .lineEnd) h.1 nofun .next (.pure h)

/-- Both passes read the same statement, if both of them can read one. -/
theorem parse_agree : Alongside Alike (Statement.parse c) (Statement.parse d) :=
  .bind firstToken_agree fun _ _ h => parseFrom_agree h.1 h.2

end Statement

end Assembler6502
