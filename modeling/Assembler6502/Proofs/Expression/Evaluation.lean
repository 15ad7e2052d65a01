/-
What an expression evaluates to.

A stack program runs the items of an expression one by one and knows nothing of
the tree they came from.  What it leaves on the stack is the value of the tree,
computed from the left to the right, and nothing below it on the stack matters.

* **`UnaryOp.denote`**, **`BinaryOp.denote`** — the operators on integers, with
  the results cut to 32 bits;
* **`foldlM_items`** — the items of an expression put one number on the stack;
* **`toInt_of_compute`** — it is the number that the expression denotes;
* **`eq_absolute_iff_of_compute`** — byte operators do not make an address a
  plain number, nor the other way round;
* **`isInternal_of_evaluate`** — no expression has an internal error.

Design notes.  The binary digits of a negative integer go on with ones to the
left, so that the bitwise operators on integers agree with those on numbers of
32 bits, and nothing has to be cut there.
-/
import Mathlib.Data.Int.Bitwise
import Assembler6502.Expression

namespace Assembler6502

/-! ### Operators on integers -/

/-- The number with 32 bits and a sign that an integer is cut to. -/
def wrap (n : Int) : Int := n.bmod (2 ^ 32)

def UnaryOp.denote : UnaryOp → Int → Int
  | negate, a => wrap (-a)
  | complement, a => Int.lnot a
  | lowByte, a => Int.land a 255
  | highByte, a => Int.land (a / 256) 255

/-- Division goes toward zero; a shift takes its distance modulo 32, and a shift to the right
rounds down. -/
def BinaryOp.denote : BinaryOp → Int → Int → Int
  | add, b, a => wrap (b + a)
  | sub, b, a => wrap (b - a)
  | mul, b, a => wrap (b * a)
  | div, b, a => wrap (b.tdiv a)
  | and, b, a => Int.land b a
  | or, b, a => Int.lor b a
  | xor, b, a => Int.xor b a
  | shiftLeft, b, a => wrap (b * 2 ^ (a % 32).toNat)
  | shiftRight, b, a => b / 2 ^ (a % 32).toNat

/-! ### Binary digits -/

/-- Integers with the same binary digits are equal. -/
theorem eq_of_testBit {m n : Int} (h : ∀ k, m.testBit k = n.testBit k) : m = n := by
  -- far enough to the left a natural number has zeros, a negative one has ones
  have mixed : ∀ a b : Nat, ¬ ∀ k, Int.testBit (a : Int) k = Int.testBit (Int.negSucc b) k := by
    intro a b hab
    have hk := hab (a + b)
    have ha : Nat.testBit a (a + b) = false :=
      Nat.testBit_lt_two_pow (Nat.lt_of_lt_of_le Nat.lt_two_pow_self
        (Nat.pow_le_pow_right (by decide) (Nat.le_add_right a b)))
    have hb : Nat.testBit b (a + b) = false :=
      Nat.testBit_lt_two_pow (Nat.lt_of_lt_of_le Nat.lt_two_pow_self
        (Nat.pow_le_pow_right (by decide) (Nat.le_add_left b a)))
    simp [Int.testBit, ha, hb] at hk
  cases m with
  | ofNat a =>
    cases n with
    | ofNat b => exact congrArg Int.ofNat (Nat.eq_of_testBit_eq h)
    | negSucc b => exact absurd h (mixed a b)
  | negSucc a =>
    cases n with
    | ofNat b => exact absurd (fun k => (h k).symm) (mixed b a)
    | negSucc b =>
      refine congrArg Int.negSucc (Nat.eq_of_testBit_eq fun k => ?_)
      exact Bool.not_inj (h k)

/-- The binary digits of a number with a sign are its bits, with its sign to the left of them. -/
theorem testBit_toInt {w : Nat} (x : BitVec w) (k : Nat) :
    x.toInt.testBit k = if k < w then x.getLsbD k else x.msb := by
  have hlt := x.isLt
  rw [BitVec.toInt_eq_msb_cond]
  cases hmsb : x.msb with
  | false =>
    have hk : (x.toNat : Int).testBit k = x.getLsbD k := rfl
    rw [if_neg (by decide), hk]
    split
    · rfl
    · exact BitVec.getLsbD_of_ge x k (by omega)
  | true =>
    have hneg : (x.toNat : Int) - (2 ^ w : Nat) = Int.negSucc (~~~x).toNat := by
      rw [BitVec.toNat_not, Int.negSucc_eq]
      omega
    have hk : (Int.negSucc (~~~x).toNat).testBit k = !(~~~x).getLsbD k := rfl
    rw [if_pos rfl, hneg, hk, BitVec.getLsbD_not]
    by_cases hw : k < w <;> simp [hw]

/-- An operator on bits is the one on the binary digits of integers, also to the left of the
sign. -/
theorem toInt_bitwise {f : Bool → Bool → Bool} {g : BitVec 32 → BitVec 32 → BitVec 32}
    {h : Int → Int → Int} (hdigit : ∀ m n k, (h m n).testBit k = f (m.testBit k) (n.testBit k))
    (hbit : ∀ x y k, (g x y).getLsbD k = f (x.getLsbD k) (y.getLsbD k))
    (hsign : ∀ x y, (g x y).msb = f x.msb y.msb) (x y : BitVec 32) :
    (g x y).toInt = h x.toInt y.toInt := by
  refine eq_of_testBit fun k => ?_
  rw [hdigit, testBit_toInt, testBit_toInt, testBit_toInt, hbit, hsign]
  split <;> rfl

theorem toInt_and (b a : Int32) : (b &&& a).toInt = Int.land b.toInt a.toInt :=
  toInt_bitwise Int.testBit_land (fun _ _ _ => BitVec.getLsbD_and) (fun _ _ => BitVec.msb_and)
    b.toBitVec a.toBitVec

theorem toInt_or (b a : Int32) : (b ||| a).toInt = Int.lor b.toInt a.toInt :=
  toInt_bitwise Int.testBit_lor (fun _ _ _ => BitVec.getLsbD_or) (fun _ _ => BitVec.msb_or)
    b.toBitVec a.toBitVec

theorem toInt_xor (b a : Int32) : (b ^^^ a).toInt = Int.xor b.toInt a.toInt :=
  toInt_bitwise Int.testBit_lxor (fun _ _ _ => BitVec.getLsbD_xor) (fun _ _ => BitVec.msb_xor)
    b.toBitVec a.toBitVec

theorem toInt_complement (a : Int32) : (~~~a).toInt = Int.lnot a.toInt := by
  have hlt := a.toInt_lt
  have hle := a.le_toInt
  rw [Int32.toInt_not, Int.bmod_eq_of_le (by omega) (by omega)]
  cases a.toInt with
  | ofNat n => simp [Int.lnot, Int.negSucc_eq]; omega
  | negSucc n => simp [Int.lnot, Int.negSucc_eq]

/-! ### Shifts -/

/-- The distance of a shift. -/
theorem toNat_smod (a : Int32) : (a.toBitVec.smod 32).toNat = (a.toInt % 32).toNat := by
  have h : (a.toBitVec.smod 32).toInt = a.toInt % 32 := by
    rw [BitVec.toInt_smod]
    exact Int.fmod_eq_emod_of_nonneg _ (by decide)
  have hpos : 0 ≤ a.toInt % 32 := Int.emod_nonneg _ (by decide)
  have hlt : a.toInt % 32 < 32 := Int.emod_lt_of_pos _ (by decide)
  rw [BitVec.toInt_eq_toNat_cond] at h
  split at h <;> omega

theorem toInt_shiftLeft (b a : Int32) :
    (b <<< a).toInt = wrap (b.toInt * 2 ^ (a.toInt % 32).toNat) := by
  have h : (b <<< a).toInt = (b.toBitVec <<< (a.toBitVec.smod 32).toNat).toInt := rfl
  have hb : b.toInt = (b.toBitVec.toNat : Int).bmod (2 ^ 32) := BitVec.toInt_eq_toNat_bmod _
  rw [h, toNat_smod, BitVec.toInt_shiftLeft, wrap, hb, Int.bmod_mul_bmod, Nat.shiftLeft_eq]
  push_cast
  rfl

theorem toInt_shiftRight (b a : Int32) :
    (b >>> a).toInt = b.toInt / 2 ^ (a.toInt % 32).toNat := by
  have h : (b >>> a).toInt = (b.toBitVec.sshiftRight (a.toBitVec.smod 32).toNat).toInt := rfl
  rw [h, toNat_smod, BitVec.toInt_sshiftRight, Int.shiftRight_eq_div_pow]
  push_cast
  rfl

/-! ### The operators of expressions -/

theorem UnaryOp.toInt_apply (op : UnaryOp) (a : Int32) :
    (op.apply a).toInt = op.denote a.toInt := by
  cases op with
  | negate => exact Int32.toInt_neg a
  | complement => exact toInt_complement a
  | lowByte => exact toInt_and a 0xff
  | highByte =>
    show ((a >>> 8) &&& 0xff).toInt = Int.land (a.toInt / 256) 255
    rw [toInt_and, toInt_shiftRight]
    rfl

/-- In the second pass an operator has a result unless it divides by zero. -/
theorem BinaryOp.apply_second {op : BinaryOp} {b a v : Int32} :
    op.apply .second b a = .ok v ↔
      ¬ (op = .div ∧ a = 0) ∧ v.toInt = op.denote b.toInt a.toInt := by
  have hresult : ∀ x : Int32, (Except.ok x : Except StatementError Int32) = .ok v ↔
      v.toInt = x.toInt := by
    intro x
    rw [Except.ok.injEq, Int32.toInt_inj, eq_comm]
  cases op with
  | div =>
    by_cases ha : a = 0
    · simp [apply, ha]
    · simp only [apply, if_pos ha, hresult, ha, and_false, not_false_eq_true, true_and]
      rw [Int32.toInt_div]
      rfl
  | add => simp only [apply, hresult, Int32.toInt_add]; simp [denote, wrap]
  | sub => simp only [apply, hresult, Int32.toInt_sub]; simp [denote, wrap]
  | mul => simp only [apply, hresult, Int32.toInt_mul]; simp [denote, wrap]
  | and => simp only [apply, hresult, toInt_and]; simp [denote]
  | or => simp only [apply, hresult, toInt_or]; simp [denote]
  | xor => simp only [apply, hresult, toInt_xor]; simp [denote]
  | shiftLeft => simp only [apply, hresult, toInt_shiftLeft]; simp [denote]
  | shiftRight => simp only [apply, hresult, toInt_shiftRight]; simp [denote]

theorem BinaryOp.exists_apply {op : BinaryOp} {b a : Int32} (h : ¬ (op = .div ∧ a = 0))
    (pass : Pass) : ∃ v, op.apply pass b a = .ok v := by
  cases op with
  | div => exact ⟨b / a, if_pos fun ha => h ⟨rfl, ha⟩⟩
  | _ => exact ⟨_, rfl⟩

theorem BinaryOp.eq_divisionByZero {pass : Pass} {op : BinaryOp} {b a : Int32} {e : StatementError}
    (h : op.apply pass b a = .error e) : e = .divisionByZero := by
  cases op with
  | div =>
    simp only [apply] at h
    split at h
    · cases h
    · split at h <;> cases h
      rfl
  | _ => cases h

/-- The errors of byte operators. -/
def StatementError.isAmbiguous : StatementError → Bool
  | lowByteOfHighByte | highByteOfLowByte => true
  | _ => false

theorem StatementError.isInternal_of_isAmbiguous {e : StatementError} (h : e.isAmbiguous = true) :
    e.isInternal = false := by
  cases e with
  | lowByteOfHighByte | highByteOfLowByte => rfl
  | _ => cases h

theorem UnaryOp.isAmbiguous_of_relocate {op : UnaryOp} {ρ : Relocation} {e : StatementError}
    (h : op.relocate ρ = .error e) : e.isAmbiguous = true := by
  cases op <;> cases ρ <;> cases h <;> rfl

theorem UnaryOp.eq_absolute_iff_of_relocate {op : UnaryOp} {ρ ρ' : Relocation}
    (h : op.relocate ρ = .ok ρ') : ρ' = .absolute ↔ ρ = .absolute := by
  cases op <;> cases ρ <;> cases h <;> simp

/-! ### Stack programs -/

namespace StackState

variable {pass : Pass}

theorem step_unary (s : StackState) (op : UnaryOp) :
    s.step pass (.operator op.sign) = s.unary op := by
  cases op <;> rfl

theorem step_binary (s : StackState) (op : BinaryOp) :
    s.step pass (.operator op.sign) = s.binary pass op := by
  cases op <;> rfl

end StackState

namespace Expr

/-- The number and the relocation class that an expression comes to, computed from the left to the
right. -/
def compute (pass : Pass) : Expr → Relocation → Except StatementError (Int32 × Relocation)
  | value number _, ρ => .ok (number, ρ)
  | unary op operand, ρ => do
    let (a, ρ) ← operand.compute pass ρ
    return (op.apply a, ← op.relocate ρ)
  | binary op left right, ρ => do
    let (b, ρ) ← left.compute pass ρ
    let (a, ρ) ← right.compute pass ρ
    return (← op.apply pass b a, ρ)

/-- The integer that an expression stands for. -/
def denote : Expr → Int
  | value number _ => number.toInt
  | unary op operand => op.denote operand.denote
  | binary op left right => op.denote left.denote right.denote

variable {pass : Pass} {e left right : Expr} {ρ ρ' : Relocation} {x : Int32 × Relocation}

theorem compute_unary {op : UnaryOp} :
    (unary op e).compute pass ρ = .ok x ↔
      ∃ a ρ₁, e.compute pass ρ = .ok (a, ρ₁) ∧ op.relocate ρ₁ = .ok x.2 ∧ x.1 = op.apply a := by
  obtain ⟨v, ρ₂⟩ := x
  simp only [compute, bind, Except.bind, pure, Except.pure]
  cases e.compute pass ρ with
  | error err => simp
  | ok y =>
    obtain ⟨a, ρ₁⟩ := y
    cases hrelocate : op.relocate ρ₁ with
    | error err => simp [hrelocate]
    | ok ρ₃ => simp [hrelocate, and_comm, eq_comm]

theorem compute_binary {op : BinaryOp} :
    (binary op left right).compute pass ρ = .ok x ↔
      ∃ b a ρ₁, left.compute pass ρ = .ok (b, ρ₁) ∧ right.compute pass ρ₁ = .ok (a, x.2) ∧
        op.apply pass b a = .ok x.1 := by
  obtain ⟨v, ρ₂⟩ := x
  simp only [compute, bind, Except.bind, pure, Except.pure]
  cases left.compute pass ρ with
  | error err => simp
  | ok y =>
    obtain ⟨b, ρ₁⟩ := y
    cases hright : right.compute pass ρ₁ with
    | error err => simp [hright]
    | ok z =>
      obtain ⟨a, ρ₃⟩ := z
      cases happly : op.apply pass b a with
      | error err => simp [hright, happly]
      | ok w => simp [hright, happly, and_comm]

theorem error_of_compute_unary {op : UnaryOp} {err : StatementError}
    (h : (unary op e).compute pass ρ = .error err) :
    e.compute pass ρ = .error err ∨
      ∃ a ρ₁, e.compute pass ρ = .ok (a, ρ₁) ∧ op.relocate ρ₁ = .error err := by
  simp only [compute, bind, Except.bind] at h
  split at h
  · next he =>
    cases h
    exact .inl he
  · next he =>
    split at h
    · next hrelocate =>
      cases h
      exact .inr ⟨_, _, he, hrelocate⟩
    · cases h

theorem error_of_compute_binary {op : BinaryOp} {err : StatementError}
    (h : (binary op left right).compute pass ρ = .error err) :
    left.compute pass ρ = .error err ∨
      ∃ b ρ₁, left.compute pass ρ = .ok (b, ρ₁) ∧
        (right.compute pass ρ₁ = .error err ∨
          ∃ a ρ₂, right.compute pass ρ₁ = .ok (a, ρ₂) ∧ op.apply pass b a = .error err) := by
  simp only [compute, bind, Except.bind] at h
  split at h
  · next hl =>
    cases h
    exact .inl hl
  · next hl =>
    refine .inr ⟨_, _, hl, ?_⟩
    split at h
    · next hr =>
      cases h
      exact .inl hr
    · next hr =>
      split at h
      · next happly =>
        cases h
        exact .inr ⟨_, _, hr, happly⟩
      · cases h

/-- The items of an expression put its number on the stack and leave what is below alone. -/
theorem foldlM_items (e : Expr) (stack : List Int32) (ρ : Relocation) :
    e.items.foldlM (StackState.step pass) ⟨stack, ρ⟩ =
      (e.compute pass ρ).map fun x => ⟨x.1 :: stack, x.2⟩ := by
  induction e generalizing stack ρ with
  | value number address => rfl
  | unary op e ih =>
    rw [items, List.foldlM_append, ih, compute]
    cases e.compute pass ρ with
    | error err => rfl
    | ok x =>
      obtain ⟨a, ρ₁⟩ := x
      show List.foldlM (StackState.step pass) ⟨a :: stack, ρ₁⟩ [_] = _
      rw [List.foldlM_cons, StackState.step_unary, StackState.unary]
      simp only [bind, Except.bind, Except.map, pure, Except.pure]
      cases op.relocate ρ₁ <;> rfl
  | binary op left right ihl ihr =>
    rw [items, List.foldlM_append, List.foldlM_append, ihl, compute]
    cases left.compute pass ρ with
    | error err => rfl
    | ok x =>
      obtain ⟨b, ρ₁⟩ := x
      -- the right operand runs above the number of the left one
      show (List.foldlM (StackState.step pass) ⟨b :: stack, ρ₁⟩ right.items >>= _) = _
      rw [ihr]
      simp only [bind, Except.bind]
      cases right.compute pass ρ₁ with
      | error err => rfl
      | ok y =>
        obtain ⟨a, ρ₂⟩ := y
        show List.foldlM (StackState.step pass) ⟨a :: b :: stack, ρ₂⟩ [_] = _
        rw [List.foldlM_cons, StackState.step_binary, StackState.binary]
        simp only [bind, Except.bind, Except.map, pure, Except.pure]
        cases op.apply pass b a <;> rfl

theorem evaluate_eq (pass : Pass) (e : Expr) :
    e.evaluate pass = (e.compute pass e.program.relocation).map fun x => ⟨x.1, x.2⟩ := by
  rw [evaluate, StackProgram.evaluate]
  show (e.items.foldlM (StackState.step pass) ⟨[], e.program.relocation⟩ >>= _) = _
  rw [foldlM_items]
  cases e.compute pass e.program.relocation <;> rfl

theorem evaluate_eq_ok {v : Value} :
    e.evaluate pass = .ok v ↔
      e.compute pass e.program.relocation = .ok (v.number, v.relocation) := by
  obtain ⟨number, relocation⟩ := v
  rw [evaluate_eq]
  cases e.compute pass e.program.relocation with
  | error err => simp [Except.map]
  | ok x => simp [Except.map, Prod.ext_iff]

/-! ### Numbers, classes and errors -/

/-- In the second pass an expression evaluates to the number that it denotes. -/
theorem toInt_of_compute (h : e.compute .second ρ = .ok x) : x.1.toInt = e.denote := by
  induction e generalizing ρ x with
  | value number address =>
    cases h
    rfl
  | unary op e ih =>
    obtain ⟨a, ρ₁, ha, -, hx⟩ := compute_unary.mp h
    rw [hx, op.toInt_apply, ih ha, denote]
  | binary op left right ihl ihr =>
    obtain ⟨b, a, ρ₁, hb, ha, hx⟩ := compute_binary.mp h
    rw [(BinaryOp.apply_second.mp hx).2, ihl hb, ihr ha, denote]

theorem eq_absolute_iff_of_compute (h : e.compute pass ρ = .ok x) :
    x.2 = .absolute ↔ ρ = .absolute := by
  induction e generalizing ρ x with
  | value number address =>
    cases h
    rfl
  | unary op e ih =>
    obtain ⟨a, ρ₁, ha, hrelocate, -⟩ := compute_unary.mp h
    rw [UnaryOp.eq_absolute_iff_of_relocate hrelocate, ih ha]
  | binary op left right ihl ihr =>
    obtain ⟨b, a, ρ₁, hb, ha, -⟩ := compute_binary.mp h
    rw [ihr ha, ihl hb]

/-- What an expression has no value for. -/
theorem error_of_compute {err : StatementError} (h : e.compute pass ρ = .error err) :
    err = .divisionByZero ∨ err.isAmbiguous = true := by
  induction e generalizing ρ with
  | value number address => cases h
  | unary op e ih =>
    rcases error_of_compute_unary h with he | ⟨a, ρ₁, -, hrelocate⟩
    · exact ih he
    · exact .inr (UnaryOp.isAmbiguous_of_relocate hrelocate)
  | binary op left right ihl ihr =>
    rcases error_of_compute_binary h with hl | ⟨b, ρ₁, -, hr | ⟨a, ρ₂, -, happly⟩⟩
    · exact ihl hl
    · exact ihr hr
    · exact .inl (BinaryOp.eq_divisionByZero happly)

theorem isInternal_of_compute {err : StatementError} (h : e.compute pass ρ = .error err) :
    err.isInternal = false := by
  rcases error_of_compute h with rfl | hambiguous
  · rfl
  · exact StatementError.isInternal_of_isAmbiguous hambiguous

/-- The items of an expression leave one number on the stack, or fail with an error of the source. -/
theorem foldlM_items_cases (pass : Pass) (e : Expr) (ρ : Relocation) :
    (∃ number ρ', e.items.foldlM (StackState.step pass) ⟨[], ρ⟩ = .ok ⟨[number], ρ'⟩) ∨
      ∃ err, e.items.foldlM (StackState.step pass) ⟨[], ρ⟩ = .error err ∧
        err.isInternal = false := by
  rw [foldlM_items]
  cases hcompute : e.compute pass ρ with
  | ok x => exact .inl ⟨x.1, x.2, rfl⟩
  | error err => exact .inr ⟨err, rfl, isInternal_of_compute hcompute⟩

theorem isInternal_of_evaluate {err : StatementError} (h : e.evaluate pass = .error err) :
    err.isInternal = false := by
  rw [evaluate_eq] at h
  cases hcompute : e.compute pass e.program.relocation with
  | error err' =>
    rw [hcompute] at h
    cases h
    exact isInternal_of_compute hcompute
  | ok x =>
    rw [hcompute] at h
    cases h

end Expr

end Assembler6502
