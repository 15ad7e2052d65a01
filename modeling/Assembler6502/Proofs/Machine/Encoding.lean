/-
Operands in the bytes of an instruction.

The encoding of an instruction cuts its operand to the bytes that the mode has
for it.  Nothing is lost if the operand fits: an operand of one byte is a byte,
an operand of two bytes a word, and the displacement of a branch leads to its
target.

* **`Mode.bound`**, **`Instruction.Fits`** — the operands that fit a mode;
* **`displacement_eq_ok`** — how far a branch reaches, and what its byte says;
* **`Instruction.Exact`** — the bytes hold the whole operand;
* **`exact_of_encode`** — the bytes of an instruction do if its operand fits.
-/
import Assembler6502.Machine.Instruction

namespace Assembler6502

namespace Mode

/-- The largest operand that fits a mode.  The operand of a branch is its target. -/
def bound : Mode → Int
  | accumulator | implied => 0
  | absolute | absoluteX | absoluteY | indirect | relative => 0xffff
  | _ => 0xff

theorem bound_of_size_one {mode : Mode} (h : mode.size = 1) : mode.bound = 0 := by
  revert h
  cases mode <;> decide

theorem bound_of_size_two {mode : Mode} (h : mode.size = 2) (hne : mode ≠ .relative) :
    mode.bound = 0xff := by
  revert h hne
  cases mode <;> decide

theorem bound_of_size_three {mode : Mode} (h : mode.size = 3) : mode.bound = 0xffff := by
  revert h
  cases mode <;> decide

end Mode

/-! ### Arithmetic that does not wrap around -/

theorem toInt_sub_of_small {a b : Int32} (hleast : -0x80000000 ≤ a.toInt - b.toInt)
    (hmost : a.toInt - b.toInt < 0x80000000) : (a - b).toInt = a.toInt - b.toInt := by
  rw [Int32.toInt_sub]
  exact Int.bmod_eq_of_le (by omega) (by omega)

/-- A number below `0x80000000` is itself as a number with a sign. -/
theorem toInt_toInt32 {n : UInt32} (h : n.toNat < 0x80000000) : n.toInt32.toInt = n.toNat := by
  have hbits : n.toInt32.toInt = (n.toNat : Int).bmod (2 ^ 32) := by
    simp only [Int32.toInt, UInt32.toBitVec_toInt32, BitVec.toInt_eq_toNat_bmod,
      UInt32.toNat_toBitVec]
  rw [hbits]
  exact Int.bmod_eq_of_le (by omega) (by omega)

theorem toInt_word (w : UInt16) : w.toUInt32.toInt32.toInt = w.toNat := by
  have hlt := w.toNat_lt
  rw [← UInt16.toNat_toUInt32]
  exact toInt_toInt32 (by rw [UInt16.toNat_toUInt32]; omega)

namespace Instruction

/-- The operand fits the mode. -/
def Fits (i : Instruction) : Prop :=
  0 ≤ i.operand.toInt ∧ i.operand.toInt ≤ i.mode.bound

instance (i : Instruction) : Decidable i.Fits :=
  inferInstanceAs (Decidable (_ ∧ _))

/-! ### The bytes of a number -/

theorem toNat_toUInt32 {v : Int32} (h : 0 ≤ v.toInt) : (v.toUInt32.toNat : Int) = v.toInt := by
  have hle : (0 : Int32) ≤ v := Int32.le_iff_toInt_le.mpr h
  rw [Int32.toNat_toUInt32_of_le hle, ← Int32.toInt_eq_toNatClampNeg hle]

theorem toNat_lowByte {v : Int32} (h : 0 ≤ v.toInt) :
    ((lowByte v).toNat : Int) = v.toInt % 256 := by
  have hv := toNat_toUInt32 h
  have hlow : (lowByte v).toNat = v.toUInt32.toNat % 256 := UInt32.toNat_toUInt8 _
  omega

theorem toNat_highByte {v : Int32} (h : 0 ≤ v.toInt) :
    ((highByte v).toNat : Int) = v.toInt / 256 % 256 := by
  have hv := toNat_toUInt32 h
  have hhigh : (highByte v).toNat = v.toUInt32.toNat / 256 % 256 := by
    simp [highByte, Nat.shiftRight_eq_div_pow]
  omega

/-- A low byte with its sign is the number itself, if that is small. -/
theorem toInt_lowByte {v : Int32} (hleast : -128 ≤ v.toInt) (hmost : v.toInt < 128) :
    (lowByte v).toInt8.toInt = v.toInt := by
  have hbits : (lowByte v).toInt8 = v.toInt8 := by
    apply Int8.toBitVec_inj.mp
    simp [lowByte, BitVec.signExtend_eq_setWidth_of_le]
  rw [hbits, Int32.toInt_toInt8]
  exact Int.bmod_eq_of_le (by omega) (by omega)

/-! ### Branches -/

/-- A branch reaches from 126 bytes before it to 128 bytes behind it, and its byte counts from the
address behind the branch. -/
theorem displacement_eq_ok {address target : Int32} {d : UInt8} (haddress : 0 ≤ address.toInt)
    (hroom : address.toInt + 2 < 0x80000000) (htarget : 0 ≤ target.toInt)
    (h : displacement address target = .ok d) :
    -126 ≤ target.toInt - address.toInt ∧ target.toInt - address.toInt ≤ 128 ∧
      d.toInt8.toInt = target.toInt - (address.toInt + 2) := by
  have hlt : target.toInt < 0x80000000 := target.toInt_lt
  have hnext : (address + 2).toInt = address.toInt + 2 := by
    have htwo : (2 : Int32).toInt = 2 := rfl
    rw [Int32.toInt_add, htwo]
    exact Int.bmod_eq_of_le (by omega) (by omega)
  have hback : (address - target).toInt = address.toInt - target.toInt :=
    toInt_sub_of_small (by omega) (by omega)
  have hforward : (target - address).toInt = target.toInt - address.toInt :=
    toInt_sub_of_small (by omega) (by omega)
  have hbyte : (target - (address + 2)).toInt = target.toInt - (address.toInt + 2) := by
    rw [toInt_sub_of_small (by omega) (by omega), hnext]
  have hreach : -126 ≤ target.toInt - address.toInt ∧ target.toInt - address.toInt ≤ 128 ∧
      d = lowByte (target - (address + 2)) := by
    have hfar : (127 : Int32).toInt = 127 := rfl
    have hfar' : (129 : Int32).toInt = 129 := rfl
    simp only [displacement, Int32.lt_iff_toInt_lt, ge_iff_le, Int32.le_iff_toInt_le, hnext, hback,
      hforward, hfar, hfar'] at h
    split at h
    · split at h
      · cases h
      · cases h
        exact ⟨by omega, by omega, rfl⟩
    · split at h
      · cases h
      · cases h
        exact ⟨by omega, by omega, rfl⟩
  obtain ⟨hleast, hmost, rfl⟩ := hreach
  refine ⟨hleast, hmost, ?_⟩
  rw [toInt_lowByte (by omega) (by omega), hbyte]

/-- A branch that reaches its target has a displacement. -/
theorem exists_displacement {address target : Int32}
    (hleast : -126 ≤ target.toInt - address.toInt) (hmost : target.toInt - address.toInt ≤ 128) :
    ∃ d, displacement address target = .ok d := by
  have hnotback : ¬ address - target ≥ 127 := by
    have hfar : (127 : Int32).toInt = 127 := rfl
    rw [ge_iff_le, Int32.le_iff_toInt_le, toInt_sub_of_small (by omega) (by omega), hfar]
    omega
  have hnotforward : ¬ target - address ≥ 129 := by
    have hfar : (129 : Int32).toInt = 129 := rfl
    rw [ge_iff_le, Int32.le_iff_toInt_le, toInt_sub_of_small (by omega) (by omega), hfar]
    omega
  refine ⟨lowByte (target - (address + 2)), ?_⟩
  simp only [displacement, if_neg hnotback, if_neg hnotforward, ite_self]

/-! ### Whole operands -/

/-- The bytes of an instruction at an address hold its operand in full: the opcode is that of the
mode, an operand is a byte or a word with its low byte first, and a branch holds its target as a
displacement. -/
structure Exact (address : Int32) (i : Instruction) (bytes : List UInt8) : Prop where
  length : bytes.length = i.mode.size
  opcode : ∃ code, i.mnemonic.opcode i.mode = some code ∧ bytes[0]? = some code
  single : i.mode.size = 1 → i.operand = 0
  byte : i.mode.size = 2 → i.mode ≠ .relative →
    0 ≤ i.operand.toInt ∧ i.operand.toInt ≤ 0xff ∧
      ∃ low, bytes[1]? = some low ∧ (low.toNat : Int) = i.operand.toInt
  word : i.mode.size = 3 →
    0 ≤ i.operand.toInt ∧ i.operand.toInt ≤ 0xffff ∧
      ∃ low high, bytes[1]? = some low ∧ bytes[2]? = some high ∧
        (low.toNat : Int) = i.operand.toInt % 256 ∧ (high.toNat : Int) = i.operand.toInt / 256
  branch : i.mode = .relative →
    -126 ≤ i.operand.toInt - address.toInt ∧ i.operand.toInt - address.toInt ≤ 128 ∧
      ∃ d, bytes[1]? = some d ∧ d.toInt8.toInt = i.operand.toInt - (address.toInt + 2)

/-- What the encoding of the second pass is made of. -/
theorem encode_eq_ok {address : Int32} {i : Instruction} {bytes : List UInt8}
    (h : i.encode .second address = .ok bytes) :
    ∃ code, i.mnemonic.opcode i.mode = some code ∧
      ((i.mode = .relative ∧ ∃ d, displacement address i.operand = .ok d ∧ bytes = [code, d]) ∨
        (i.mode ≠ .relative ∧
          bytes = layout i.mode code (lowByte i.operand) (highByte i.operand))) := by
  rw [encode_eq] at h
  split at h
  · cases h
  · next code hcode =>
    unfold encodeWith at h
    refine ⟨code, hcode, ?_⟩
    by_cases hmode : i.mode = .relative
    · rw [if_pos ⟨hmode, rfl⟩] at h
      cases hd : displacement address i.operand with
      | error e =>
        rw [hd] at h
        cases h
      | ok d =>
        rw [hd] at h
        cases h
        refine .inl ⟨hmode, d, rfl, ?_⟩
        rw [hmode]
        rfl
    · rw [if_neg fun hand => hmode hand.1] at h
      cases h
      exact .inr ⟨hmode, rfl⟩

/-- An operand that fits is held in full, unless the address is close to the largest number. -/
theorem exact_of_encode {address : Int32} {i : Instruction} {bytes : List UInt8}
    (hfits : i.Fits) (haddress : 0 ≤ address.toInt) (hroom : address.toInt + 2 < 0x80000000)
    (h : i.encode .second address = .ok bytes) : i.Exact address bytes := by
  have hlength := length_encode h
  obtain ⟨hleast, hmost⟩ := hfits
  obtain ⟨code, hcode, ⟨hmode, d, hd, rfl⟩ | ⟨hmode, rfl⟩⟩ := encode_eq_ok h
  · -- a branch has two bytes, and the second one leads to the target
    obtain ⟨hback, hforward, hbyte⟩ := displacement_eq_ok haddress hroom hleast hd
    have hsize : i.mode.size = 2 := by rw [hmode]; rfl
    exact {
      length := hlength
      opcode := ⟨code, hcode, rfl⟩
      single := by omega
      byte := fun _ hne => absurd hmode hne
      word := by omega
      branch := fun _ => ⟨hback, hforward, d, rfl, hbyte⟩ }
  · -- any other instruction is cut to the length of its mode
    have hlow := toNat_lowByte hleast
    have hhigh := toNat_highByte hleast
    exact {
      length := hlength
      opcode := ⟨code, hcode, by cases i.mode <;> rfl⟩
      single := by
        intro hsize
        rw [Mode.bound_of_size_one hsize] at hmost
        exact Int32.toInt_inj.mp (Int.le_antisymm hmost hleast)
      byte := by
        intro hsize hne
        rw [Mode.bound_of_size_two hsize hne] at hmost
        refine ⟨hleast, hmost, lowByte i.operand, ?_, by omega⟩
        rw [layout, hsize]
        rfl
      word := by
        intro hsize
        rw [Mode.bound_of_size_three hsize] at hmost
        have hcut : layout i.mode code (lowByte i.operand) (highByte i.operand) =
            [code, lowByte i.operand, highByte i.operand] := by rw [layout, hsize]; rfl
        rw [hcut]
        exact ⟨hleast, hmost, _, _, rfl, rfl, hlow, by omega⟩
      branch := fun hrelative => absurd hrelative hmode }

end Instruction

end Assembler6502
