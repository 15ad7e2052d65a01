/-
Operands that have one width in both passes.

The first pass knows the labels before a statement and has a placeholder for
all others.  An expression over known labels has the same value in both passes.
A name alone, and a reference to an anonymous label, may have the placeholder in
the first pass, but then both values lie above the zero page, and with them the
instruction has its absolute form twice.

* **`Cursor.lexemes`** — the lexemes ahead, up to a comma or the end of a line;
* **`settled`**, **`stableOperand`** — what is asked of the lexemes of an operand;
* **`Reading.Level`** — the second reading has all values of the first one, and
  no value in the zero page;
* **`parse_level`** — a statement with such an operand has the same width and,
  if it is an origin, the same address in both passes.

Design notes.  A relation between readings that holds as long as the lexemes
ahead are of some kind is kept by every token but the one that ends the
operand.
-/
import Assembler6502.Proofs.Statement.Agreement
import Assembler6502.Proofs.Statement.Extent
import Assembler6502.Proofs.Statement.Values

namespace Assembler6502

open Assembler6502.Parser

/-! ### Addresses above the zero page -/

/-- Neither negative nor in the zero page. -/
def AboveZeroPage (v : Int32) : Prop :=
  0x100 ≤ v

/-- A word above the zero page has a high byte. -/
theorem page_ne_zero {v : Int32} (h : AboveZeroPage v) (hw : fitsWord v = true) :
    v &&& 0xff00 ≠ 0 := by
  have hlow : 0x100 ≤ v.toInt := by
    have hle := Int32.le_iff_toInt_le.mp h
    simpa using hle
  have hhigh : v.toInt ≤ 0xffff := by
    rw [fitsWord, Bool.and_eq_true, decide_eq_true_eq, decide_eq_true_eq] at hw
    have hle := Int32.le_iff_toInt_le.mp hw.2
    simpa using hle
  intro hzero
  have hnat : v.toBitVec.toNat = v.toInt.toNat := by
    have hint : v.toInt = v.toBitVec.toInt := rfl
    rw [BitVec.toInt_eq_toNat_cond] at hint
    split at hint <;> omega
  have hand : v.toBitVec.toNat &&& 0xff00 = 0 := by
    have hbits := congrArg (fun x : Int32 => x.toBitVec.toNat) hzero
    simpa using hbits
  -- the bits that are left are those of the high byte
  have hshift : (v.toBitVec.toNat &&& 0xff00) >>> 8 = v.toBitVec.toNat / 256 % 256 := by
    rw [Nat.shiftRight_and_distrib, Nat.shiftRight_eq_div_pow]
    exact Nat.and_two_pow_sub_one_eq_mod _ 8
  rw [hand, Nat.zero_shiftRight] at hshift
  omega

/-- The value of the first pass is that of the second, or a placeholder for one above the zero
page. -/
def Near (v w : Int32) : Prop :=
  v = w ∨ v = Pass.placeholder ∧ AboveZeroPage w

/-- Values that are near each other choose the same mode, if the second one is a word. -/
theorem Mnemonic.pageMode_near {v w : Int32} (h : Near v w) (hw : fitsWord w = true)
    (m : Mnemonic) (short : Mode) : m.pageMode short v = m.pageMode short w := by
  rcases h with rfl | ⟨rfl, hhigh⟩
  · rfl
  · have hplaceholder : Pass.placeholder &&& 0xff00 ≠ 0 := by decide
    have hpage := page_ne_zero hhigh hw
    unfold pageMode
    cases short.widened with
    | none => rfl
    | some long =>
      dsimp only
      rw [if_pos (.inl hplaceholder), if_pos (.inl hpage)]

/-- A branch has one mode. -/
theorem Mnemonic.mode_of_isBranch {m : Mnemonic} (hm : m.isBranch = true) {mode : Mode}
    {opcode : UInt8} (h : m.opcode mode = some opcode) : mode = .relative := by
  cases m <;> cases hm <;> cases mode <;> cases h <;> rfl

/-! ### Lexemes ahead -/

namespace Cursor

/-- At most `n` lexemes, up to one that ends an operand. -/
def lexemesUpTo : Nat → Cursor → List (Lexeme Spelling)
  | 0, _ => []
  | n + 1, c =>
    match c.next with
    | (.ok token, behind) =>
      if token.lexeme.endsOperand then [] else token.lexeme :: lexemesUpTo n behind
    | (.error _, _) => []

/-- The lexemes ahead, up to a comma or the end of the line. -/
def lexemes (c : Cursor) : List (Lexeme Spelling) :=
  lexemesUpTo (c.rest.length + 1) c

/-- There are no more lexemes than bytes, so a bound above their number is none. -/
theorem lexemesUpTo_eq {n m : Nat} {c : Cursor} (hn : c.rest.length < n) (hm : c.rest.length < m) :
    lexemesUpTo n c = lexemesUpTo m c := by
  induction n generalizing m c with
  | zero => exact absurd hn (Nat.not_lt_zero _)
  | succ n ih =>
    cases m with
    | zero => exact absurd hm (Nat.not_lt_zero _)
    | succ m =>
      unfold lexemesUpTo
      cases hnext : c.next with
      | mk result behind =>
        cases result with
        | error e => rfl
        | ok token =>
          have hlength := c.next_length_lt
          rw [hnext] at hlength
          dsimp only at hlength ⊢
          rcases hlength with ⟨p, hend⟩ | hlt
          · cases hend
            rfl
          · rw [ih (m := m) (c := behind) (by omega) (by omega)]

theorem lexemes_of_next {c behind : Cursor} {token : Token Spelling}
    (h : c.next = (.ok token, behind)) :
    c.lexemes = if token.lexeme.endsOperand then [] else token.lexeme :: behind.lexemes := by
  have hlength := c.next_length_lt
  rw [h] at hlength
  have hstep : c.lexemes = if token.lexeme.endsOperand then []
      else token.lexeme :: lexemesUpTo c.rest.length behind := by
    rw [lexemes, lexemesUpTo, h]
  rcases hlength with ⟨p, hend⟩ | hlt
  · cases hend
    exact hstep
  · rw [hstep, lexemes, lexemesUpTo_eq hlt (Nat.lt_succ_self _)]

/-- The lexemes of the statement ahead, up to a comma or the end of the line. -/
def opening (c : Cursor) : List (Lexeme Spelling) :=
  match c.next with
  | (.ok token, behind) => if token.lexeme = .lineEnd then behind.lexemes else c.lexemes
  | (.error _, _) => []

end Cursor

/-- Whether a lexeme stands for the same in both passes, with these labels known. -/
def Lexeme.isSettled (labels : List String) : Lexeme Spelling → Bool
  | .name w => labels.contains w.text
  | .forward | .backward => false
  | _ => true

/-- Whether lexemes mention no names but known labels, and no anonymous ones. -/
def settled (labels : List String) (lexemes : List (Lexeme Spelling)) : Bool :=
  lexemes.all (Lexeme.isSettled labels)

/-- Whether an operand has the same width in both passes.  Behind a parenthesis or `#` the mode does
not depend on the value. -/
def stableOperand (labels : List String) : List (Lexeme Spelling) → Bool
  | [.name _] | [.forward] | [.backward] => true
  | .leftParen :: _ | .operator .hash :: _ => true
  | lexemes => settled labels lexemes

/-! ### Evaluation in the first pass -/

theorem BinaryOp.apply_first {op : BinaryOp} {b a v : Int32} (h : op.apply .second b a = .ok v) :
    op.apply .first b a = .ok v := by
  cases op with
  | div =>
    unfold apply at h ⊢
    dsimp only at h ⊢
    by_cases ha : a ≠ 0
    · rw [if_pos ha] at h ⊢
      exact h
    · rw [if_neg ha, if_pos rfl] at h
      cases h
  | _ => exact h

theorem StackState.binary_first {op : BinaryOp} {s t : StackState}
    (h : s.binary .second op = .ok t) : s.binary .first op = .ok t := by
  unfold binary at h ⊢
  split at h
  · next a b rest relocation =>
    cases hv : op.apply .second b a with
    | error e =>
      rw [hv] at h
      cases h
    | ok v =>
      rw [hv] at h
      rw [BinaryOp.apply_first hv]
      exact h
  · cases h

theorem StackState.step_first {s t : StackState} {item : StackItem}
    (h : s.step .second item = .ok t) : s.step .first item = .ok t := by
  cases item with
  | operand v => exact h
  | operator op =>
    cases op with
    | plus | minus | star | slash | ampersand | pipe | caret | shiftLeft | shiftRight =>
      exact binary_first h
    | _ => exact h

/-- The passes differ in the values of names and in divisions by zero, which the second pass
refuses. -/
theorem Expr.evaluate_first {e : Expr} {v : Value} (h : e.evaluate .second = .ok v) :
    e.evaluate .first = .ok v := by
  have hfold : ∀ (items : List StackItem) (s t : StackState),
      items.foldlM (StackState.step .second) s = .ok t →
        items.foldlM (StackState.step .first) s = .ok t := by
    intro items
    induction items with
    | nil => exact fun _ _ h => h
    | cons item rest ih =>
      intro s t h
      rw [List.foldlM_cons] at h ⊢
      cases hs : s.step .second item with
      | error e =>
        rw [hs] at h
        cases h
      | ok u =>
        rw [hs] at h
        rw [StackState.step_first hs]
        exact ih u t h
  unfold evaluate StackProgram.evaluate at h ⊢
  cases hs : e.program.items.foldlM (StackState.step .second) ⟨[], e.program.relocation⟩ with
  | error e =>
    rw [hs] at h
    cases h
  | ok s =>
    rw [hs] at h
    rw [hfold _ _ _ hs]
    exact h

/-! ### Readings on one level -/

namespace Scopes

variable {s t : Scopes} {name : String} {w : Spelling}

/-- In the outermost scope there is one place to look a name up. -/
theorem lookup_outermost (h : s.path = []) : s.lookup name = s.symbolAt [] name := by
  unfold lookup
  rw [h]
  show List.findSome? _ [[]] = _
  rw [List.findSome?_cons]
  cases s.symbolAt [] name <;> rfl

theorem resolve_outermost (h : s.path = []) : s.resolve name = s.definitionAt [] name := by
  unfold resolve
  rw [h]
  show List.findSome? _ [[]] = _
  rw [List.findSome?_cons]
  unfold definitionAt
  cases (s.symbolAt [] name).bind Symbol.definition? <;> rfl

theorem classify_congr (h : s.lookup w.text = t.lookup w.text) :
    (s.classify w).1 = (t.classify w).1 := by
  unfold classify
  rw [h]
  split <;> rfl

/-- A name that is read with a value is looked up with that value. -/
theorem lookup_of_value {v : Int32} (h : (s.classify w).1.symbol.value = some v) :
    ∃ kind, s.lookup w.text = some ⟨kind, some v⟩ := by
  unfold classify at h
  split at h
  · next hlookup =>
    cases h
    exact ⟨_, hlookup⟩
  · cases h
  · cases h
  · next symbol _ hlookup =>
    obtain ⟨kind, value⟩ := symbol
    cases h
    exact ⟨kind, hlookup⟩
  · cases h

/-- In the outermost scope a name that is read with a value has it there. -/
theorem definitionAt_of_value (hs : s.path = []) {v : Int32}
    (h : (s.classify w).1.symbol.value = some v) :
    ∃ kind, s.definitionAt [] w.text = some ⟨kind, v⟩ := by
  obtain ⟨kind, hlookup⟩ := lookup_of_value h
  rw [lookup_outermost hs] at hlookup
  refine ⟨kind, ?_⟩
  rw [definitionAt, hlookup]
  rfl

end Scopes

/-- Readings in the outermost scope, abreast of each other.  The second one has all values of the
first one and none in the zero page, and both know the labels. -/
structure Reading.Level (labels : List String) (r s : Reading) : Prop extends r.Abreast s where
  outermost : r.scopes.path = []
  kept : ∀ name d, r.scopes.definitionAt [] name = some d → s.scopes.definitionAt [] name = some d
  known : ∀ name ∈ labels, ∃ v, r.scopes.definitionAt [] name = some ⟨.label, v⟩
  high : ∀ name d, s.scopes.definitionAt [] name = some d → AboveZeroPage d.value

/-- The contexts of one statement in the two passes. -/
structure Context.Level (c d : Context) : Prop where
  first : c.pass = .first
  second : d.pass = .second
  address : c.address = d.address
  marks : ∀ mark ∈ d.anonymous, AboveZeroPage mark

variable {labels : List String} {r s r' s' : Reading} {c d : Context}

namespace Reading.Level

theorem of_sameValues (h : r.Level labels s) (hr : r.SameValues r') (hs : s.SameValues s')
    (habreast : r'.Abreast s') : r'.Level labels s' where
  toAbreast := habreast
  outermost := hr.path.trans h.outermost
  kept name v hv := by
    rw [hr.definitionAt] at hv
    rw [hs.definitionAt]
    exact h.kept name v hv
  known name hname := by
    obtain ⟨v, hv⟩ := h.known name hname
    exact ⟨v, (hr.definitionAt _ _).trans hv⟩
  high name v hv := by
    rw [hs.definitionAt] at hv
    exact h.high name v hv

/-- A known label is read as the same name twice. -/
theorem classify_eq (h : r.Level labels s) {w : Spelling} (hw : w.text ∈ labels) :
    (r.scopes.classify w).1 = (s.scopes.classify w).1 ∧
      (r.scopes.classify w).1.symbol.value.isSome = true := by
  obtain ⟨v, hv⟩ := h.known _ hw
  have hr : r.scopes.definitionAt r.scopes.path w.text = some ⟨.label, v⟩ := by
    rw [h.outermost]
    exact hv
  have hs : s.scopes.definitionAt s.scopes.path w.text = some ⟨.label, v⟩ := by
    rw [← h.path, h.outermost]
    exact h.kept _ _ hv
  rw [Scopes.classify_of_label hr, Scopes.classify_of_label hs]
  exact ⟨rfl, rfl⟩

/-- Any other name is read as the same name with its value, or without a value in the first
reading and with none in the zero page in the second. -/
theorem classify_near (h : r.Level labels s) (w : Spelling) :
    ((r.scopes.classify w).1 = (s.scopes.classify w).1 ∧
      (r.scopes.classify w).1.symbol.value.isSome = true) ∨
    ((r.scopes.classify w).1.symbol.value = none ∧
      ∀ v, (s.scopes.classify w).1.symbol.value = some v → AboveZeroPage v) := by
  cases hvalue : (r.scopes.classify w).1.symbol.value with
  | some v =>
    left
    refine ⟨Scopes.classify_congr ?_, rfl⟩
    obtain ⟨kind, hr⟩ := Scopes.definitionAt_of_value h.outermost hvalue
    have hs := h.kept _ _ hr
    rw [← h.outermost] at hr
    rw [← h.outermost, h.path] at hs
    rw [Scopes.lookup_of_definitionAt hr, Scopes.lookup_of_definitionAt hs]
  | none =>
    right
    refine ⟨rfl, fun v hv => ?_⟩
    obtain ⟨kind, hs⟩ := Scopes.definitionAt_of_value (h.path ▸ h.outermost) hv
    exact h.high _ _ hs

end Reading.Level

/-- The relation of readings on one level while all lexemes ahead are of a kind. -/
def Ahead (labels : List String) (kind : Lexeme Spelling → Bool) (r s : Reading) : Prop :=
  r.Level labels s ∧ r.cursor.lexemes.all kind = true

/-- The scopes change names only. -/
theorem Lexeme.bind_eq {l m : Lexeme Spelling} {σ τ : Scopes} (h : (l.bind σ).1 = (m.bind τ).1)
    (hm : ∀ w, m ≠ .name w) : l = m := by
  cases m with
  | name w => exact absurd rfl (hm w)
  | _ =>
    cases l
    all_goals cases h
    all_goals rfl

namespace Ahead

variable {kind : Lexeme Spelling → Bool} {N : Name → Name → Prop} {O : Prop}

/-- The next lexeme is of the kind, and so are those behind it, unless it ends the operand. -/
theorem of_next (h : Ahead labels kind r s) {token : Token Spelling} {cursor : Cursor}
    (hc : r.cursor.next = (.ok token, cursor)) (hend : token.lexeme.endsOperand = false) :
    kind token.lexeme = true ∧ cursor.lexemes.all kind = true := by
  have hall := h.2
  rw [Cursor.lexemes_of_next hc, hend] at hall
  simpa using hall

theorem alike (hN : ∀ {r s : Reading} {w : Spelling}, r.Level labels s → kind (.name w) = true →
      N (r.scopes.classify w).1 (s.scopes.classify w).1) (h : Ahead labels kind r s)
    {token : Token Spelling} {cursor : Cursor} (hc : r.cursor.next = (.ok token, cursor)) :
    (token.lexeme.bind r.scopes).1.Alike N (token.lexeme.bind s.scopes).1 := by
  refine Lexeme.bind_alike fun w hw => hN h.1 ?_
  have hkind := (h.of_next hc (by rw [hw]; rfl)).1
  rw [hw] at hkind
  exact hkind

/-- Tokens keep the relation up to the one that ends the operand. -/
theorem reads (hN : ∀ {r s : Reading} {w : Spelling}, r.Level labels s → kind (.name w) = true →
      N (r.scopes.classify w).1 (s.scopes.classify w).1)
    (hO : ∀ op, kind (.operator op) = true → O) : Reads (Ahead labels kind) N O where
  cursor r s h := h.1.cursor
  next := by
    intro r s h t r' ht u s' hu
    have hlevel : r'.Level labels s' := h.1.of_sameValues (Follows.of_ok next_sameValues ht)
      (Follows.of_ok next_sameValues hu) (next_abreast h.1.toAbreast ht hu).2
    obtain ⟨token, hc, rfl, hr⟩ := next_eq_ok ht
    obtain ⟨token', hc', rfl, -⟩ := next_eq_ok hu
    rw [← h.1.cursor, hc, Prod.mk.injEq, Except.ok.injEq] at hc'
    obtain ⟨rfl, -⟩ := hc'
    refine ⟨h.alike hN hc, fun hend => ⟨hlevel, (h.of_next hc ?_).2⟩⟩
    rw [← Lexeme.bind_endsOperand r.scopes]
    exact hend
  peek := by
    intro r s h t r' ht u s' hu
    have hlevel : r'.Level labels s' := h.1.of_sameValues
      (Follows.of_ok Reading.kept_sameValues.peek ht)
      (Follows.of_ok Reading.kept_sameValues.peek hu)
      (peek_abreast h.1.toAbreast ht hu).2
    obtain ⟨token, cursor, hc, rfl, rfl⟩ := peek_eq_ok ht
    obtain ⟨token', cursor', hc', rfl, rfl⟩ := peek_eq_ok hu
    rw [← h.1.cursor, hc] at hc'
    cases hc'
    exact ⟨h.alike hN hc, hlevel, h.2⟩
  operator := by
    intro r s h t r' ht hsome
    obtain ⟨token, cursor, hc, rfl, -⟩ := peek_eq_ok ht
    cases hl : token.lexeme with
    | operator op =>
      have hkind := (h.of_next hc (by rw [hl]; rfl)).1
      rw [hl] at hkind
      exact hO op hkind
    | _ => simp [hl, Lexeme.bind, Lexeme.operator?] at hsome

end Ahead

/-! ### Expressions -/

/-- An expression over known labels is read as the same tree twice. -/
theorem Expr.parallel_settled (hcd : c.Level d) :
    Parallel (Ahead labels (Lexeme.isSettled labels))
      (fun m n => m = n ∧ m.symbol.value.isSome = true) Eq True c d where
  toReads :=
    Ahead.reads (fun h hw => h.classify_eq (List.contains_iff_mem.mp hw)) fun _ _ => trivial
  constant _ := rfl
  here := by rw [hcd.address]
  name m n h := by
    obtain ⟨rfl, hsome⟩ := h
    obtain ⟨v, hv⟩ := Option.isSome_iff_exists.mp hsome
    have hvalue : ∀ {pass : Pass} {r r' : Reading} {e : Expr}, ofName pass m r = .ok e r' →
        r' = r ∧ e = .value v (m.symbol.kind = .label) := by
      intro pass r r' e he
      obtain ⟨hr, ⟨x, hx, rfl⟩ | ⟨hnone, -⟩ | ⟨hnone, -⟩⟩ := ofName_eq_ok he
      · rw [hv, Option.some.injEq] at hx
        rw [hx]
        exact ⟨hr, rfl⟩
      · rw [hv] at hnone
        cases hnone
      · rw [hv] at hnone
        cases hnone
    intro r s hR e r' he f s' hf
    rw [(hvalue he).1, (hvalue hf).1, (hvalue he).2, (hvalue hf).2]
    exact ⟨rfl, hR⟩
  unary _ op e f h := by rw [h]
  binary _ op e f e' f' h h' := by rw [h, h']

theorem Value.parse_settled (hcd : c.Level d) :
    Agree (Ahead labels (Lexeme.isSettled labels)) (Value.parse c) (Value.parse d)
      fun v w r s => v = w ∧ r.Abreast s := by
  refine (Value.parse_agree (Expr.parallel_settled hcd)).mono (fun _ _ h => h) ?_
  rintro v w r s ⟨⟨e, f, rfl, hv, hw⟩, hR⟩
  rw [hcd.first] at hv
  rw [hcd.second] at hw
  rw [Expr.evaluate_first hw, Except.ok.injEq] at hv
  exact ⟨hv.symm, hR.1.toAbreast⟩

def Lexeme.isName : Lexeme Spelling → Bool
  | .name _ => true
  | _ => false

/-- A name alone has values that are near each other.  No operator is ahead, so none has to keep
this. -/
theorem Expr.parallel_name (hcd : c.Level d) :
    Parallel (Ahead labels Lexeme.isName)
      (fun m n => (m = n ∧ m.symbol.value.isSome = true) ∨
        (m.symbol.value = none ∧ ∀ v, n.symbol.value = some v → AboveZeroPage v))
      (fun e f => ∃ v a w b, e = .value v a ∧ f = .value w b ∧ Near v w) False c d where
  toReads := Ahead.reads (fun h _ => h.classify_near _) nofun
  constant v := ⟨v, _, v, _, rfl, rfl, .inl rfl⟩
  here := ⟨_, _, _, _, rfl, rfl, .inl hcd.address⟩
  name m n h := by
    intro r s hR e r' he f s' hf
    obtain ⟨rfl, he⟩ := ofName_eq_ok he
    obtain ⟨rfl, hf⟩ := ofName_eq_ok hf
    refine ⟨?_, hR⟩
    rcases h with ⟨rfl, hsome⟩ | ⟨hnone, hhigh⟩
    · obtain ⟨v, hv⟩ := Option.isSome_iff_exists.mp hsome
      rw [hv] at he hf
      simp only [Option.some.injEq, exists_eq_left', reduceCtorEq, false_and, or_false] at he hf
      exact ⟨v, _, v, _, he, hf, .inl rfl⟩
    · -- the first pass has the placeholder
      rw [hnone] at he
      simp only [reduceCtorEq, false_and, exists_false, false_or, true_and, hcd.first,
        or_false] at he
      rcases hf with ⟨w, hw, hf⟩ | ⟨-, hpass, -⟩ | ⟨-, -, x, hx, hf⟩
      · exact ⟨_, _, w, _, he, hf, .inr ⟨rfl, hhigh w hw⟩⟩
      · rw [hcd.second] at hpass
        cases hpass
      · rw [Scopes.resolve_outermost (hR.1.path ▸ hR.1.outermost)] at hx
        exact ⟨_, _, _, _, he, hf, .inr ⟨rfl, hR.1.high _ _ hx⟩⟩
  unary h := h.elim
  binary h := h.elim

theorem Value.parse_name (hcd : c.Level d) :
    Agree (Ahead labels Lexeme.isName) (Value.parse c) (Value.parse d)
      fun v w r s => Near v.number w.number ∧ r.Abreast s := by
  refine (Value.parse_agree (Expr.parallel_name hcd)).mono (fun _ _ h => h) ?_
  rintro v w r s ⟨⟨e, f, ⟨x, a, y, b, rfl, rfl, hnear⟩, hv, hw⟩, hR⟩
  cases hv
  cases hw
  exact ⟨hnear, hR.1.toAbreast⟩

/-! ### Operands -/

namespace Statement

/-- An operand that is a value is an expression, if no reference is ahead. -/
theorem operand_ahead {kind : Lexeme Spelling → Bool} {N : Name → Name → Prop} {O : Prop}
    {V : Value → Value → Prop} (hreads : Reads (Ahead labels kind) N O)
    (hvalue : Agree (Ahead labels kind) (Value.parse c) (Value.parse d)
      fun v w r s => V v w ∧ r.Abreast s)
    (hforward : kind .forward = false) (hbackward : kind .backward = false) :
    Agree (Ahead labels kind) (operand c) (operand d)
      fun x y r s => SameOperand V x y ∧ r.Abreast s := by
  refine operand_agree_of (F := False) ?_ hvalue ?_ nofun nofun
  · intro r s h t r' ht u s' hu
    have hahead := (hreads.peek h ht hu).2
    exact ⟨(peek_abreast h.1.toAbreast ht hu).1, hahead, fun _ => hahead⟩
  · intro r s h t r' ht u s' hu
    obtain ⟨⟨halike, -⟩, habreast⟩ := next_abreast h.1.toAbreast ht hu
    refine ⟨⟨halike, ?_⟩, habreast⟩
    obtain ⟨token, hc, rfl, -⟩ := next_eq_ok ht
    rintro (hl | hl)
    · have htoken : token.lexeme = .forward :=
        Lexeme.bind_eq (m := .forward) (τ := r.scopes) hl nofun
      have hkind := (h.of_next hc (by rw [htoken]; rfl)).1
      rw [htoken, hforward] at hkind
      cases hkind
    · have htoken : token.lexeme = .backward :=
        Lexeme.bind_eq (m := .backward) (τ := r.scopes) hl nofun
      have hkind := (h.of_next hc (by rw [htoken]; rfl)).1
      rw [htoken, hbackward] at hkind
      cases hkind

/-- A reference has the placeholder in the first pass, and a mark in the second. -/
theorem reference_near (hcd : c.Level d) {resolve : List Int32 → Int32 → Option Int32}
    (hresolve : ∀ {marks address mark}, resolve marks address = some mark → mark ∈ marks)
    {e : StatementError} :
    Alongside (fun v w => Near v.number w.number)
      (reference c resolve e) (reference d resolve e) := by
  unfold reference
  rw [hcd.first, hcd.second]
  dsimp only
  split
  · next mark hmark => exact .pure (.inr ⟨rfl, hcd.marks mark (hresolve hmark)⟩)
  · exact Agree.fail_right

theorem mem_of_resolveForward {marks : List Int32} {address mark : Int32}
    (h : AnonymousLabels.resolveForward marks address = some mark) : mark ∈ marks :=
  List.mem_of_find?_eq_some h

theorem mem_of_resolveBackward {marks : List Int32} {address mark : Int32}
    (h : AnonymousLabels.resolveBackward marks address = some mark) : mark ∈ marks := by
  rcases Option.or_eq_some_iff.mp h with hfind | ⟨-, hlast⟩
  · exact List.mem_reverse.mp (List.mem_of_find?_eq_some hfind)
  · exact List.mem_of_getLast? hlast

/-- Where no expression starts, an operand that is a value is a reference. -/
theorem operand_reference (hcd : c.Level d) :
    Agree (fun r s => r.Level labels s ∧
        ∃ l rest, r.cursor.lexemes = l :: rest ∧ l.startsExpression = false)
      (operand c) (operand d)
      fun x y r s => SameOperand (fun v w => Near v.number w.number) x y ∧ r.Abreast s := by
  refine operand_agree_of (S := fun _ _ => False) (F := True) ?_ (fun _ _ h => h.elim) ?_
    (fun _ => reference_near hcd mem_of_resolveForward)
    (fun _ => reference_near hcd mem_of_resolveBackward)
  · rintro r s ⟨hlevel, l, rest, hlexemes, hl⟩ t r' ht u s' hu
    have hsame := Follows.of_ok Reading.kept_sameValues.peek ht
    have hsame' := Follows.of_ok Reading.kept_sameValues.peek hu
    obtain ⟨halike, habreast⟩ := peek_abreast hlevel.toAbreast ht hu
    obtain ⟨token, cursor, hc, rfl, rfl⟩ := peek_eq_ok ht
    refine ⟨halike, ⟨hlevel.of_sameValues hsame hsame' habreast, l, rest, hlexemes, hl⟩, ?_⟩
    intro hstart
    rw [Cursor.lexemes_of_next hc] at hlexemes
    split at hlexemes
    · cases hlexemes
    · cases hlexemes
      rw [Lexeme.startsExpression_bind, hl] at hstart
      cases hstart
  · intro r s h t r' ht u s' hu
    obtain ⟨⟨halike, -⟩, habreast⟩ := next_abreast h.1.toAbreast ht hu
    exact ⟨⟨halike, fun _ => trivial⟩, habreast⟩

/-- The values of a stable operand are near each other. -/
theorem operand_stable (hcd : c.Level d) :
    Agree (fun r s => r.Level labels s ∧ stableOperand labels r.cursor.lexemes = true)
      (operand c) (operand d)
      fun x y r s => SameOperand (fun v w => Near v.number w.number) x y ∧ r.Abreast s := by
  rintro r s ⟨hlevel, hstable⟩
  unfold stableOperand at hstable
  split at hstable
  · next hl =>
    exact operand_ahead (Expr.parallel_name hcd).toReads (Value.parse_name hcd) rfl rfl
      ⟨hlevel, by rw [hl]; rfl⟩
  · next hl => exact operand_reference hcd ⟨hlevel, _, _, hl, rfl⟩
  · next hl => exact operand_reference hcd ⟨hlevel, _, _, hl, rfl⟩
  · next hl => exact operand_reference hcd ⟨hlevel, _, _, hl, rfl⟩
  · next hl => exact operand_reference hcd ⟨hlevel, _, _, hl, rfl⟩
  · have hnear : Agree (Ahead labels (Lexeme.isSettled labels)) (Value.parse c) (Value.parse d)
        fun v w r s => Near v.number w.number ∧ r.Abreast s :=
      (Value.parse_settled hcd).mono (fun _ _ h => h) fun _ _ _ _ h => ⟨.inl (by rw [h.1]), h.2⟩
    exact operand_ahead (Expr.parallel_settled hcd).toReads hnear rfl rfl ⟨hlevel, hstable⟩

/-! ### Statements -/

theorem directOperand_near (hcd : c.Level d) (m : Mnemonic) {v w : Int32} (h : Near v w) :
    Alongside (fun o o' => o.1 = o'.1) (directOperand c m v) (directOperand d m w) := by
  by_cases hfits : fitsWord w = true
  · exact directOperand_agree_of (fun short => m.pageMode_near h hfits short) fun _ => rfl
  · -- the second pass refuses what is no word
    intro r s _ o r' _ o' s' ho'
    obtain ⟨_, _, hcheck, -⟩ := bind_eq_ok ho'
    unfold checkWidth at hcheck
    rw [hcd.second, Bool.eq_false_iff.mpr hfits] at hcheck
    cases hcheck

/-- A stable operand has the same mode twice. -/
theorem parseOperand_stable (hcd : c.Level d) (m : Mnemonic) :
    Agree (fun r s => r.Level labels s ∧ stableOperand labels r.cursor.lexemes = true)
      (parseOperand c m) (parseOperand d m) fun o o' r s => o.1 = o'.1 ∧ r.Abreast s :=
  parseOperand_agree_of m (operand_stable hcd) (fun _ _ h => directOperand_near hcd m h)
    fun _ => rfl

/-- An origin over known labels is the same address twice. -/
theorem parseOrigin_settled (hcd : c.Level d) :
    Agree (Ahead labels (Lexeme.isSettled labels)) (parseOrigin c) (parseOrigin d)
      fun a b _ _ => a = b := by
  have hvalue : Agree (Ahead labels (Lexeme.isSettled labels)) (operand c) (operand d)
      fun x y r s => SameOperand Eq x y ∧ r.Abreast s :=
    operand_ahead (Expr.parallel_settled hcd).toReads (Value.parse_settled hcd) rfl rfl
  refine .bind (expectValue_agree_of hvalue) fun v w => .intro fun h => ?_
  subst h
  exact .bind checkWidth_agree fun _ _ => .intro fun _ => .bind endOfStatement_agree fun _ _ =>
    .pure fun _ _ _ => rfl

/-- The lexemes of an operand, for those of the statement: they follow the first lexeme, or the `=`
of an origin. -/
def operandOf : List (Lexeme Spelling) → List (Lexeme Spelling)
  | .operator .star :: .assign :: rest => rest
  | _ :: rest => rest
  | [] => []

/-- Whether a statement has the same width in both passes, by its lexemes. -/
def widthStable (labels : List String) (opening : List (Lexeme Spelling)) : Statement → Bool
  | .instruction i => i.mnemonic.isBranch || stableOperand labels (operandOf opening)
  | .origin _ => settled labels (operandOf opening)
  | .openScope _ | .assign _ _ _ => false
  | _ => true

theorem Alike.behind_eq {a b : Statement} (h : a.Alike b)
    (hmode : ∀ i j, a = .instruction i → b = .instruction j → i.mode = j.mode)
    (horigin : ∀ x y, a = .origin x → b = .origin y → x = y) (address : Int32) :
    a.behind address = b.behind address := by
  cases h.kinds with
  | @instruction i j =>
    show address + Int32.ofNat i.mode.size = address + Int32.ofNat j.mode.size
    rw [hmode i j rfl rfl]
  | @origin x y => exact horigin x y rfl rfl
  | @bytes p q length =>
    show address + Int32.ofNat p.length = address + Int32.ofNat q.length
    rw [length]
  | @words p q length =>
    show address + Int32.ofNat (2 * p.length) = address + Int32.ofNat (2 * q.length)
    rw [length]
  | _ => rfl

/-- The lexemes of a statement are its first token and those behind it. -/
theorem firstToken_opening {t : Token Name} (h : firstToken r = .ok t r') :
    ∃ l σ, t.lexeme = (Lexeme.bind σ l).1 ∧
      (l.endsOperand = false → r.cursor.opening = l :: r'.cursor.lexemes) := by
  obtain ⟨t₀, r₀, hnext, h⟩ := bind_eq_ok h
  obtain ⟨token₀, hc₀, rfl, -⟩ := next_eq_ok hnext
  have hopening : r.cursor.opening =
      if token₀.lexeme = .lineEnd then r₀.cursor.lexemes else r.cursor.lexemes := by
    rw [Cursor.opening, hc₀]
  split at h
  · next hline =>
    have htoken : token₀.lexeme = .lineEnd :=
      Lexeme.bind_eq (m := .lineEnd) (τ := r.scopes) hline nofun
    obtain ⟨token, hc, rfl, -⟩ := next_eq_ok h
    refine ⟨token.lexeme, r₀.scopes, rfl, fun hend => ?_⟩
    rw [hopening, if_pos htoken, Cursor.lexemes_of_next hc, hend]
    rfl
  · next hline =>
    cases h
    refine ⟨token₀.lexeme, r.scopes, rfl, fun hend => ?_⟩
    rw [hopening, if_neg, Cursor.lexemes_of_next hc₀, hend]
    · rfl
    · intro htoken
      rw [htoken] at hline
      exact hline rfl

theorem expect_assign {what : String} {x : Unit} (h : expect .assign what r = .ok x r') :
    r.cursor.lexemes = .assign :: r'.cursor.lexemes := by
  obtain ⟨t, r₁, hnext, h⟩ := bind_eq_ok h
  obtain ⟨token, hc, rfl, -⟩ := next_eq_ok hnext
  split at h
  · cases h
  · next hassign =>
    cases h
    have htoken : token.lexeme = .assign :=
      Lexeme.bind_eq (m := .assign) (τ := r.scopes) (Decidable.not_not.mp hassign) nofun
    rw [Cursor.lexemes_of_next hc, htoken]
    rfl

/-- A statement that is stable by its lexemes leads on from the same address to the same address in
both passes, unless it is a branch. -/
theorem parse_level (hcd : c.Level d) (hlevel : r.Level labels s) {a b : Statement}
    (ha : Statement.parse c r = .ok a r') (hb : Statement.parse d s = .ok b s')
    (hstable : a.widthStable labels r.cursor.opening = true) :
    (∀ address, a.behind address = b.behind address) ∨
      ∃ i, a = .instruction i ∧ i.mnemonic.isBranch = true := by
  have halike := (parse_agree hlevel.toAbreast ha hb).1
  obtain ⟨⟨t, p⟩, r₁, ht, ha⟩ := bind_eq_ok ha
  obtain ⟨⟨u, q⟩, s₁, hu, hb⟩ := bind_eq_ok hb
  obtain ⟨⟨htu, -⟩, habreast⟩ := firstToken_agree hlevel.toAbreast ht hu
  have hlevel₁ : r₁.Level labels s₁ := hlevel.of_sameValues
    ((firstToken_grammatical.follows Reading.kept_sameValues).of_ok ht)
    ((firstToken_grammatical.follows Reading.kept_sameValues).of_ok hu) habreast
  obtain ⟨l, σ, hl, hopening⟩ := firstToken_opening ht
  have hbegins := parseFrom_begins ha
  cases hbegins with
  | @instruction m mode v =>
    cases hbranch : m.isBranch with
    | true => exact .inr ⟨_, rfl, hbranch⟩
    | false =>
      have hm : l = .mnemonic m := Lexeme.bind_eq (m := .mnemonic m) (τ := σ) hl.symm nofun
      rw [hopening (by rw [hm]; rfl), hm, widthStable, hbranch, Bool.false_or] at hstable
      cases htu
      obtain ⟨o, r₂, ho, ha⟩ := bind_eq_ok ha
      obtain ⟨o', s₂, ho', hb⟩ := bind_eq_ok hb
      have hmode := (parseOperand_stable hcd m ⟨hlevel₁, hstable⟩ ho ho').1
      cases ha
      cases hb
      refine .inl (halike.behind_eq ?_ fun _ _ h => nomatch h)
      intro i j hi hj
      cases hi
      cases hj
      exact hmode
  | origin =>
    have hm : l = .directive .origin :=
      Lexeme.bind_eq (m := .directive .origin) (τ := σ) hl.symm nofun
    rw [hopening (by rw [hm]; rfl), hm] at hstable
    cases htu
    exact .inl fun address => by rw [parseOrigin_settled hcd ⟨hlevel₁, hstable⟩ ha hb]
  | assignedOrigin =>
    have hm : l = .operator .star := Lexeme.bind_eq (m := .operator .star) (τ := σ) hl.symm nofun
    rw [hopening (by rw [hm]; rfl), hm] at hstable
    cases htu
    obtain ⟨_, r₂, hassign, ha⟩ := bind_eq_ok ha
    obtain ⟨_, s₂, hassign', hb⟩ := bind_eq_ok hb
    rw [expect_assign hassign] at hstable
    have hlevel₂ : r₂.Level labels s₂ := hlevel₁.of_sameValues
      ((expect_grammatical.follows Reading.kept_sameValues).of_ok hassign)
      ((expect_grammatical.follows Reading.kept_sameValues).of_ok hassign')
      (expect_agree (l := .assign) nofun hlevel₁.toAbreast hassign hassign').2
    exact .inl fun address => by rw [parseOrigin_settled hcd ⟨hlevel₂, hstable⟩ ha hb]
  | openScope => cases hstable
  | assign => cases hstable
  | _ => exact .inl (halike.behind_eq (fun _ _ h => nomatch h) fun _ _ h => nomatch h)

end Statement

end Assembler6502
