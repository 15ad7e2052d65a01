/-
Instructions and their bytes.

An instruction is a mnemonic, an addressing mode and an operand.  Its encoding
is the opcode byte and the operand, low byte first, cut to the length of the
mode.  A branch holds its target as a displacement from the address after it;
the first pass, which does not know the targets, leaves the operand as it is.

* **`encode_eq`** — every permitted mode has an opcode, so looking for the opcode
  is enough;
* **`length_encode`** — an encoding has the length of its mode;
* **`encode_eq_error_iff`** — outside branches, the one error is a mode that
  the mnemonic does not take.
-/
import Assembler6502.Expression
import Assembler6502.Machine.Mnemonic

namespace Assembler6502

structure Instruction where
  mnemonic : Mnemonic
  mode : Mode
  operand : Int32
deriving DecidableEq, Repr

namespace Instruction

/-- The low byte of a number. -/
def lowByte (v : Int32) : UInt8 :=
  v.toUInt32.toUInt8

/-- The byte above the low byte of a number. -/
def highByte (v : Int32) : UInt8 :=
  (v.toUInt32 >>> 8).toUInt8

/-- The displacement byte of a branch at `address`.  The target lies at most 126 bytes before the
branch or 128 bytes after it. -/
def displacement (address target : Int32) : Except StatementError UInt8 :=
  let next := address + 2
  if target < next then
    if address - target ≥ 127 then .error .branchTooFarBackward
    else .ok (lowByte (target - next))
  else if target - address ≥ 129 then .error .branchTooFarForward
  else .ok (lowByte (target - next))

/-- Opcode, low byte and high byte, cut to the length of the mode. -/
def layout (mode : Mode) (opcode low high : UInt8) : List UInt8 :=
  [opcode, low, high].take mode.size

/-- The bytes of an instruction with its opcode. -/
def encodeWith (pass : Pass) (address : Int32) (i : Instruction) (opcode : UInt8) :
    Except StatementError (List UInt8) :=
  if i.mode = .relative ∧ pass = .second then
    (displacement address i.operand).map fun d => layout i.mode opcode d 0
  else .ok (layout i.mode opcode (lowByte i.operand) (highByte i.operand))

/-- The bytes of an instruction at an address. -/
def encode (pass : Pass) (address : Int32) (i : Instruction) : Except StatementError (List UInt8) :=
  if i.mnemonic.modes.contains i.mode then
    match i.mnemonic.opcode i.mode with
    | none => .error (.internal (.encoding i.mnemonic i.mode))
    | some opcode => i.encodeWith pass address opcode
  else .error .illegalMode

/-- Every permitted mode has an opcode. -/
theorem encode_eq (pass : Pass) (address : Int32) (i : Instruction) :
    i.encode pass address =
      match i.mnemonic.opcode i.mode with
      | none => .error .illegalMode
      | some opcode => i.encodeWith pass address opcode := by
  have hmodes := Mnemonic.contains_modes_iff i.mnemonic i.mode
  unfold encode
  cases hopcode : i.mnemonic.opcode i.mode <;> simp_all

/-- What is wrong with an instruction is wrong in the source. -/
theorem isInternal_of_encode {pass : Pass} {address : Int32} {i : Instruction} {e : StatementError}
    (h : i.encode pass address = .error e) : e.isInternal = false := by
  rw [encode_eq] at h
  split at h
  · cases h
    rfl
  · unfold encodeWith displacement at h
    split at h
    · dsimp only at h
      split at h <;> split at h <;> cases h <;> rfl
    · cases h

theorem length_layout (mode : Mode) (opcode low high : UInt8) :
    (layout mode opcode low high).length = mode.size := by
  cases mode <;> rfl

theorem length_encode {pass : Pass} {address : Int32} {i : Instruction} {bytes : List UInt8}
    (h : i.encode pass address = .ok bytes) : bytes.length = i.mode.size := by
  rw [encode_eq] at h
  split at h
  · cases h
  · unfold encodeWith at h
    split at h
    · cases hd : displacement address i.operand with
      | error e => simp [hd, Except.map] at h
      | ok d =>
        simp only [hd, Except.map, Except.ok.injEq] at h
        rw [← h, length_layout]
    · cases h
      exact length_layout ..

theorem encode_eq_error_iff {pass : Pass} {address : Int32} {i : Instruction}
    (hm : i.mode ≠ .relative) {e : StatementError} :
    i.encode pass address = .error e ↔
      e = .illegalMode ∧ i.mnemonic.modes.contains i.mode = false := by
  have hc := Mnemonic.contains_modes_iff i.mnemonic i.mode
  rw [encode_eq]
  cases ho : i.mnemonic.opcode i.mode with
  | none =>
    rw [ho] at hc
    have hf : i.mnemonic.modes.contains i.mode = false := by simpa using hc
    simp only [Except.error.injEq, hf, and_true]
    exact eq_comm
  | some opcode => simp_all [encodeWith]

end Instruction

end Assembler6502
