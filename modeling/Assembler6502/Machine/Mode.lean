/-
The operand forms of the 6502.

An instruction is written with one of thirteen addressing modes.  The mode
fixes the length of the instruction, and a zero-page mode has an absolute
counterpart for operands that need sixteen bits.

* **`Mode.size`** — bytes of an instruction in that mode, opcode included;
* **`Mode.widened`** — the absolute counterpart of a zero-page mode;
* **`ModeSet`** — sets of modes, one bit per mode; `contains_union`,
  `contains_ofList` and `mem_toList` say what they hold.
-/
namespace Assembler6502

/-- The operand forms, in the order of their numbers. -/
inductive Mode where
  | accumulator
  | immediate
  | zeroPage
  | zeroPageX
  | zeroPageY
  | absolute
  | absoluteX
  | absoluteY
  | implied
  | relative
  | indirectX
  | indirectY
  | indirect
deriving DecidableEq, Repr

namespace Mode

/-- Every mode, in order. -/
def all : List Mode :=
  [.accumulator, .immediate, .zeroPage, .zeroPageX, .zeroPageY, .absolute, .absoluteX,
    .absoluteY, .implied, .relative, .indirectX, .indirectY, .indirect]

theorem mem_all (m : Mode) : m ∈ all := by
  cases m <;> decide

/-- The English name of a mode, as it stands in a report. -/
def name : Mode → String
  | accumulator => "Accumulator"
  | immediate => "Immediate"
  | zeroPage => "ZeroPage"
  | zeroPageX => "ZeroPageX"
  | zeroPageY => "ZeroPageY"
  | absolute => "Absolute"
  | absoluteX => "AbsoluteX"
  | absoluteY => "AbsoluteY"
  | implied => "Implied"
  | relative => "Relative"
  | indirectX => "IndirectX"
  | indirectY => "IndirectY"
  | indirect => "Indirect"

/-- Place of a mode in `all`. -/
def index : Mode → Nat
  | accumulator => 0
  | immediate => 1
  | zeroPage => 2
  | zeroPageX => 3
  | zeroPageY => 4
  | absolute => 5
  | absoluteX => 6
  | absoluteY => 7
  | implied => 8
  | relative => 9
  | indirectX => 10
  | indirectY => 11
  | indirect => 12

/-- Instruction length in bytes, the opcode included. -/
def size : Mode → Nat
  | accumulator | implied => 1
  | absolute | absoluteX | absoluteY | indirect => 3
  | _ => 2

/-- The absolute counterpart of a zero-page mode. -/
def widened : Mode → Option Mode
  | zeroPage => some absolute
  | zeroPageX => some absoluteX
  | zeroPageY => some absoluteY
  | _ => none

/-- The number whose single binary digit one stands for the mode in a `ModeSet`. -/
def bit (m : Mode) : Nat :=
  1 <<< m.index

end Mode

/-! ### Sets of modes -/

/-- A set of modes, kept as one bit per mode. -/
structure ModeSet where
  mask : BitVec 13
deriving DecidableEq, Repr

namespace ModeSet

def empty : ModeSet := ⟨0⟩

/-- Whether a mode is in the set. -/
def contains (s : ModeSet) (m : Mode) : Bool :=
  s.mask.getLsbD m.index

def union (s t : ModeSet) : ModeSet :=
  ⟨s.mask ||| t.mask⟩

def insert (s : ModeSet) (m : Mode) : ModeSet :=
  ⟨s.mask ||| BitVec.ofNat 13 m.bit⟩

def ofList (modes : List Mode) : ModeSet :=
  modes.foldl insert empty

/-- The members, in the order of `Mode.all`. -/
def toList (s : ModeSet) : List Mode :=
  Mode.all.filter s.contains

/-- Operand forms of the arithmetic and load instructions. -/
def arithmetic : ModeSet :=
  ofList [.immediate, .zeroPage, .zeroPageX, .absolute, .absoluteX, .absoluteY, .indirectX,
    .indirectY]

/-- Memory operand forms of the instructions that change a byte in place. -/
def memory : ModeSet :=
  ofList [.zeroPage, .zeroPageX, .absolute, .absoluteX]

theorem mem_toList {s : ModeSet} {m : Mode} : m ∈ s.toList ↔ s.contains m = true := by
  simp [toList, Mode.mem_all]

@[simp]
theorem contains_empty (m : Mode) : empty.contains m = false := by
  simp [empty, contains]

@[simp]
theorem contains_union (s t : ModeSet) (m : Mode) :
    (s.union t).contains m = (s.contains m || t.contains m) := by
  simp [union, contains]

@[simp]
theorem contains_insert (s : ModeSet) (m n : Mode) :
    (s.insert m).contains n = (s.contains n || decide (m = n)) := by
  have hbit : (BitVec.ofNat 13 m.bit).getLsbD n.index = decide (m = n) := by
    cases m <;> cases n <;> decide
  simp [insert, contains, hbit]

theorem contains_ofList {modes : List Mode} {m : Mode} :
    (ofList modes).contains m = true ↔ m ∈ modes := by
  have key : ∀ s : ModeSet, (modes.foldl insert s).contains m = true ↔
      s.contains m = true ∨ m ∈ modes := by
    induction modes with
    | nil => simp
    | cons n rest ih =>
      intro s
      rw [List.foldl_cons, ih, contains_insert, List.mem_cons, show (m = n) = (n = m) from propext eq_comm]
      simp [or_assoc]
  rw [ofList, key]
  simp

end ModeSet

end Assembler6502
