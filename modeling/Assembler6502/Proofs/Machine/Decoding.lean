/-
From bytes back to instructions.

An opcode byte belongs to one mnemonic in one mode, the mode says how many bytes
of operand follow, and these hold the operand.  So code that is made of
instructions can be taken apart again.

* **`ofOpcode?_of_opcode`** — no two instructions share an opcode byte;
* **`Instruction.decode`**, **`Instruction.decodeAll`** — the instruction at the
  front of bytes, and all of them;
* **`Instruction.Canonical`** — the form in which an instruction is written is
  the one that it is read in;
* **`decode_encode`** — the bytes of an instruction are decoded to it.

Design notes.  The address of a canonical instruction is a natural number, so
that a branch can be at any distance from the origin of a program.
-/
import Assembler6502.Proofs.Machine.Encoding
import Assembler6502.Proofs.Statement.Extent

namespace Assembler6502

/-! ### Opcodes -/

namespace Mnemonic

/-- The mnemonic and the mode of an opcode byte. -/
def ofOpcode? (code : UInt8) : Option (Mnemonic × Mode) :=
  all.findSome? fun m => (m.codes.find? fun entry => entry.2 == code).map fun entry => (m, entry.1)

/-- Each opcode byte stands for one instruction. -/
theorem ofOpcode?_of_opcode {m : Mnemonic} {mode : Mode} {code : UInt8}
    (h : m.opcode mode = some code) : ofOpcode? code = some (m, mode) := by
  have htable : ∀ m ∈ all, ∀ mode ∈ Mode.all,
      (m.opcode mode).bind ofOpcode? = (m.opcode mode).map fun _ => (m, mode) := by
    decide +kernel
  have hentry := htable m m.mem_all mode mode.mem_all
  rw [h] at hentry
  exact hentry

end Mnemonic

namespace Instruction

/-! ### Decoding -/

/-- The number that bytes make up, the low byte first. -/
def operandValue : List UInt8 → Nat
  | [] => 0
  | low :: rest => low.toNat + 256 * operandValue rest

/-- The operand of an instruction at an address.  A branch counts from the address behind it. -/
def decodeOperand (address : Int32) : Mode → List UInt8 → Int32
  | .relative, [d] => address + 2 + d.toInt8.toInt32
  | _, bytes => Int32.ofNat (operandValue bytes)

/-- The instruction in front of bytes, and the bytes behind it. -/
def decode (address : Int32) : List UInt8 → Option (Instruction × List UInt8)
  | [] => none
  | code :: rest => do
    let (m, mode) ← Mnemonic.ofOpcode? code
    let count := mode.size - 1
    if rest.length < count then none
    else some (⟨m, mode, decodeOperand address mode (rest.take count)⟩, rest.drop count)

theorem decode_length_lt {address : Int32} {bytes rest : List UInt8} {i : Instruction}
    (h : decode address bytes = some (i, rest)) : rest.length < bytes.length := by
  cases bytes with
  | nil => cases h
  | cons code behind =>
    obtain ⟨⟨m, mode⟩, -, h⟩ := Option.bind_eq_some_iff.mp h
    dsimp only at h
    split at h
    · cases h
    · cases h
      rw [List.length_drop, List.length_cons]
      omega

/-- The instructions that bytes are made of. -/
def decodeAll (address : Int32) (bytes : List UInt8) : Option (List Instruction) :=
  if bytes.isEmpty then some []
  else
    match _h : decode address bytes with
    | none => none
    | some (i, rest) => (decodeAll (address + Int32.ofNat i.mode.size) rest).map (i :: ·)
termination_by bytes.length
decreasing_by exact decode_length_lt _h

theorem decodeAll_nil (address : Int32) : decodeAll address [] = some [] := by
  rw [decodeAll]
  rfl

theorem decodeAll_of_decode {address : Int32} {bytes rest : List UInt8} {i : Instruction}
    (h : decode address bytes = some (i, rest)) :
    decodeAll address bytes =
      (decodeAll (address + Int32.ofNat i.mode.size) rest).map (i :: ·) := by
  have hne : ¬ bytes.isEmpty = true := by
    cases bytes with
    | nil => cases h
    | cons code behind => exact Bool.false_ne_true
  rw [decodeAll, if_neg hne]
  split
  · next hnone =>
    rw [h] at hnone
    cases hnone
  · next hsome =>
    rw [h] at hsome
    cases hsome
    rfl

/-! ### Canonical instructions -/

/-- An instruction at an address that is written in the form in which it is read: the mnemonic has
the mode, the operand fits it and is not one for the shorter form, and a branch reaches its
target. -/
structure Canonical (address : Nat) (i : Instruction) : Prop where
  permitted : i.mnemonic.modes.contains i.mode = true
  fits : i.Fits
  widest : ∀ short : Mode, short.widened = some i.mode →
    i.mnemonic.modes.contains short = true → 0x100 ≤ i.operand.toInt
  reach : i.mode = .relative →
    -126 ≤ i.operand.toInt - address ∧ i.operand.toInt - address ≤ 128

instance (address : Nat) (i : Instruction) : Decidable (i.Canonical address) :=
  decidable_of_iff
    (i.mnemonic.modes.contains i.mode = true ∧ i.Fits ∧
      (∀ short ∈ Mode.all, short.widened = some i.mode →
        i.mnemonic.modes.contains short = true → 0x100 ≤ i.operand.toInt) ∧
      (i.mode = .relative →
        -126 ≤ i.operand.toInt - address ∧ i.operand.toInt - address ≤ 128))
    ⟨fun ⟨permitted, fits, widest, reach⟩ =>
      ⟨permitted, fits, fun short => widest short short.mem_all, reach⟩,
      fun h => ⟨h.permitted, h.fits, fun short _ => h.widest short, h.reach⟩⟩

variable {address : Nat} {i : Instruction}

/-- An address that a branch can have is a number. -/
theorem Canonical.toInt_address (h : i.Canonical address) (hmode : i.mode = .relative) :
    (Int32.ofNat address).toInt = address := by
  have hreach := h.reach hmode
  have hmost := h.fits.2
  rw [hmode] at hmost
  have hbound : Mode.relative.bound = 0xffff := rfl
  exact Int32.toInt_ofNat_of_lt (by omega)

/-- A canonical instruction can be encoded in both passes. -/
theorem Canonical.exists_encode (h : i.Canonical address) (pass : Pass) :
    ∃ bytes, i.encode pass (Int32.ofNat address) = .ok bytes := by
  have hopcode := (Mnemonic.contains_modes_iff _ _).mp h.permitted
  obtain ⟨code, hcode⟩ := Option.isSome_iff_exists.mp hopcode
  rw [encode_eq, hcode]
  dsimp only
  unfold encodeWith
  split
  · next hbranch =>
    have haddress := h.toInt_address hbranch.1
    have hreach := h.reach hbranch.1
    have hdisplacement : ∃ d, displacement (Int32.ofNat address) i.operand = .ok d :=
      exists_displacement (by omega) (by omega)
    obtain ⟨d, hd⟩ := hdisplacement
    rw [hd]
    exact ⟨_, rfl⟩
  · exact ⟨_, rfl⟩

/-! ### Decoding what was encoded -/

theorem decode_of_opcode {m : Mnemonic} {mode : Mode} {code : UInt8}
    (hcode : m.opcode mode = some code) {operand : List UInt8}
    (hlength : operand.length = mode.size - 1) (address : Int32) (rest : List UInt8) :
    decode address (code :: (operand ++ rest)) =
      some (⟨m, mode, decodeOperand address mode operand⟩, rest) := by
  have hroom : ¬ (operand ++ rest).length < mode.size - 1 := by
    rw [List.length_append]
    omega
  simp only [decode, Mnemonic.ofOpcode?_of_opcode hcode, Option.bind_eq_bind, Option.bind_some,
    if_neg hroom]
  rw [← hlength, List.take_left, List.drop_left]

theorem ofNat_eq {n : Nat} {v : Int32} (h : (n : Int) = v.toInt) : Int32.ofNat n = v := by
  have hlt := v.toInt_lt
  apply Int32.toInt_inj.mp
  rw [Int32.toInt_ofNat_of_lt (by omega), h]

/-- The bytes of an operand that fits are decoded to it. -/
theorem decodeOperand_of_fits (hfits : i.Fits) (hmode : i.mode ≠ .relative) (address : Int32) :
    decodeOperand address i.mode ([lowByte i.operand, highByte i.operand].take (i.mode.size - 1)) =
      i.operand := by
  obtain ⟨hleast, hmost⟩ := hfits
  have hplain : ∀ bytes, decodeOperand address i.mode bytes = Int32.ofNat (operandValue bytes) := by
    intro bytes
    unfold decodeOperand
    split
    · next heq => exact absurd heq hmode
    · rfl
  have hlow := toNat_lowByte hleast
  have hhigh := toNat_highByte hleast
  have hsize : i.mode.size = 1 ∨ i.mode.size = 2 ∨ i.mode.size = 3 := by
    cases i.mode <;> decide
  rw [hplain]
  apply ofNat_eq
  rcases hsize with hsize | hsize | hsize
  · rw [Mode.bound_of_size_one hsize] at hmost
    rw [hsize]
    show ((0 : Nat) : Int) = i.operand.toInt
    omega
  · rw [Mode.bound_of_size_two hsize hmode] at hmost
    rw [hsize]
    show (((lowByte i.operand).toNat + 256 * 0 : Nat) : Int) = i.operand.toInt
    omega
  · rw [Mode.bound_of_size_three hsize] at hmost
    rw [hsize]
    show (((lowByte i.operand).toNat + 256 * ((highByte i.operand).toNat + 256 * 0) : Nat) : Int) =
      i.operand.toInt
    omega

/-- A displacement that is counted from behind the branch leads to the target. -/
theorem add_displacement {address target : Int32} {d : UInt8} (haddress : 0 ≤ address.toInt)
    (hroom : address.toInt + 2 < 0x80000000) (htarget : 0 ≤ target.toInt)
    (h : displacement address target = .ok d) : address + 2 + d.toInt8.toInt32 = target := by
  obtain ⟨hback, hforward, hbyte⟩ := displacement_eq_ok haddress hroom htarget h
  have hnext : (address + 2).toInt = address.toInt + 2 := toInt_add_ofNat haddress hroom
  have hdistance : d.toInt8.toInt32 = target - (address + 2) := by
    apply Int32.toInt_inj.mp
    rw [Int8.toInt_toInt32, hbyte, toInt_sub_of_small (by omega) (by omega), hnext]
  rw [hdistance]
  grind

/-- The bytes of a canonical instruction are decoded to it, whatever follows. -/
theorem decode_encode (h : i.Canonical address) {bytes : List UInt8}
    (hcode : i.encode .second (Int32.ofNat address) = .ok bytes) (rest : List UInt8) :
    decode (Int32.ofNat address) (bytes ++ rest) = some (i, rest) := by
  obtain ⟨code, hopcode, ⟨hmode, d, hd, rfl⟩ | ⟨hmode, rfl⟩⟩ := encode_eq_ok hcode
  · have haddress := h.toInt_address hmode
    have hreach := h.reach hmode
    have hmost := h.fits.2
    have hbound : i.mode.bound = 0xffff := by rw [hmode]; rfl
    have htarget := add_displacement (by omega) (by omega) h.fits.1 hd
    have hlength : [d].length = i.mode.size - 1 := by rw [hmode]; rfl
    have hdecode := decode_of_opcode hopcode hlength (Int32.ofNat address) rest
    have hoperand : decodeOperand (Int32.ofNat address) i.mode [d] = i.operand := by
      rw [hmode]
      exact htarget
    rw [hoperand] at hdecode
    exact hdecode
  · have hlayout : layout i.mode code (lowByte i.operand) (highByte i.operand) =
        code :: [lowByte i.operand, highByte i.operand].take (i.mode.size - 1) := by
      cases i.mode <;> rfl
    have hlength : ([lowByte i.operand, highByte i.operand].take (i.mode.size - 1)).length =
        i.mode.size - 1 := by
      cases i.mode <;> rfl
    have hdecode := decode_of_opcode hopcode hlength (Int32.ofNat address) rest
    rw [decodeOperand_of_fits h.fits hmode] at hdecode
    rw [hlayout]
    exact hdecode

end Instruction

end Assembler6502
