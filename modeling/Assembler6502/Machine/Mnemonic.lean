/-
The instruction set of the 6502.

There are fifty-six mnemonics.  A mnemonic takes some of the addressing modes
and has one opcode byte for each of them.  `Mnemonic.modes` gives the modes by
family, `Mnemonic.opcode` the bytes, and the two agree.

* **`contains_modes_iff`** — a mode is permitted exactly when it has an opcode.
-/
import Assembler6502.Machine.Mode

namespace Assembler6502

/-- The instructions, in alphabetical order. -/
inductive Mnemonic where
  | adc | and | asl | bcc | bcs | beq | bit | bmi
  | bne | bpl | brk | bvc | bvs | clc | cld | cli
  | clv | cmp | cpx | cpy | dec | dex | dey | eor
  | inc | inx | iny | jmp | jsr | lda | ldx | ldy
  | lsr | nop | ora | pha | php | pla | plp | rol
  | ror | rti | rts | sbc | sec | sed | sei | sta
  | stx | sty | tax | tay | tsx | txa | txs | tya
deriving DecidableEq, Repr

namespace Mnemonic

/-- Every mnemonic, in order. -/
def all : List Mnemonic :=
  [.adc, .and, .asl, .bcc, .bcs, .beq, .bit, .bmi, .bne, .bpl, .brk, .bvc, .bvs, .clc, .cld,
    .cli, .clv, .cmp, .cpx, .cpy, .dec, .dex, .dey, .eor, .inc, .inx, .iny, .jmp, .jsr, .lda,
    .ldx, .ldy, .lsr, .nop, .ora, .pha, .php, .pla, .plp, .rol, .ror, .rti, .rts, .sbc, .sec,
    .sed, .sei, .sta, .stx, .sty, .tax, .tay, .tsx, .txa, .txs, .tya]

/-- The mnemonic as it is written, in lower case. -/
def name : Mnemonic → String
  | adc => "adc"
  | and => "and"
  | asl => "asl"
  | bcc => "bcc"
  | bcs => "bcs"
  | beq => "beq"
  | bit => "bit"
  | bmi => "bmi"
  | bne => "bne"
  | bpl => "bpl"
  | brk => "brk"
  | bvc => "bvc"
  | bvs => "bvs"
  | clc => "clc"
  | cld => "cld"
  | cli => "cli"
  | clv => "clv"
  | cmp => "cmp"
  | cpx => "cpx"
  | cpy => "cpy"
  | dec => "dec"
  | dex => "dex"
  | dey => "dey"
  | eor => "eor"
  | inc => "inc"
  | inx => "inx"
  | iny => "iny"
  | jmp => "jmp"
  | jsr => "jsr"
  | lda => "lda"
  | ldx => "ldx"
  | ldy => "ldy"
  | lsr => "lsr"
  | nop => "nop"
  | ora => "ora"
  | pha => "pha"
  | php => "php"
  | pla => "pla"
  | plp => "plp"
  | rol => "rol"
  | ror => "ror"
  | rti => "rti"
  | rts => "rts"
  | sbc => "sbc"
  | sec => "sec"
  | sed => "sed"
  | sei => "sei"
  | sta => "sta"
  | stx => "stx"
  | sty => "sty"
  | tax => "tax"
  | tay => "tay"
  | tsx => "tsx"
  | txa => "txa"
  | txs => "txs"
  | tya => "tya"

/-- The mnemonic of that name; names are in lower case. -/
def ofName? (name : String) : Option Mnemonic :=
  all.find? fun m => m.name == name

/-- The conditional branches. -/
def isBranch : Mnemonic → Bool
  | bcc | bcs | beq | bmi | bne | bpl | bvc | bvs => true
  | _ => false

/-- The shifts and rotations, which work on the accumulator when no operand is written. -/
def isShift : Mnemonic → Bool
  | asl | lsr | rol | ror => true
  | _ => false

/-- The addressing modes that an instruction takes. -/
def modes : Mnemonic → ModeSet
  | adc | and | cmp | eor | lda | ora | sbc => .arithmetic
  | asl | lsr | rol | ror => ModeSet.memory.insert .accumulator
  | bcc | bcs | beq | bmi | bne | bpl | bvc | bvs => .ofList [.relative]
  | bit => .ofList [.zeroPage, .absolute]
  | cpx | cpy => .ofList [.immediate, .zeroPage, .absolute]
  | dec | inc => .memory
  | jmp => .ofList [.absolute, .indirect]
  | jsr => .ofList [.absolute]
  | ldx => .ofList [.immediate, .zeroPage, .zeroPageY, .absolute, .absoluteY]
  | ldy => .ofList [.immediate, .zeroPage, .zeroPageX, .absolute, .absoluteX]
  | sta => .ofList [.zeroPage, .zeroPageX, .absolute, .absoluteX, .absoluteY, .indirectX,
      .indirectY]
  | stx => .ofList [.zeroPage, .zeroPageY, .absolute]
  | sty => .ofList [.zeroPage, .zeroPageX, .absolute]
  | _ => .ofList [.implied]

/-- The opcode byte of each mode that the instruction has. -/
def codes : Mnemonic → List (Mode × UInt8)
  | adc => [(.immediate, 0x69), (.zeroPage, 0x65), (.zeroPageX, 0x75), (.absolute, 0x6d),
      (.absoluteX, 0x7d), (.absoluteY, 0x79), (.indirectX, 0x61), (.indirectY, 0x71)]
  | and => [(.immediate, 0x29), (.zeroPage, 0x25), (.zeroPageX, 0x35), (.absolute, 0x2d),
      (.absoluteX, 0x3d), (.absoluteY, 0x39), (.indirectX, 0x21), (.indirectY, 0x31)]
  | asl => [(.accumulator, 0x0a), (.zeroPage, 0x06), (.zeroPageX, 0x16), (.absolute, 0x0e),
      (.absoluteX, 0x1e)]
  | bcc => [(.relative, 0x90)]
  | bcs => [(.relative, 0xb0)]
  | beq => [(.relative, 0xf0)]
  | bit => [(.zeroPage, 0x24), (.absolute, 0x2c)]
  | bmi => [(.relative, 0x30)]
  | bne => [(.relative, 0xd0)]
  | bpl => [(.relative, 0x10)]
  | brk => [(.implied, 0x00)]
  | bvc => [(.relative, 0x50)]
  | bvs => [(.relative, 0x70)]
  | clc => [(.implied, 0x18)]
  | cld => [(.implied, 0xd8)]
  | cli => [(.implied, 0x58)]
  | clv => [(.implied, 0xb8)]
  | cmp => [(.immediate, 0xc9), (.zeroPage, 0xc5), (.zeroPageX, 0xd5), (.absolute, 0xcd),
      (.absoluteX, 0xdd), (.absoluteY, 0xd9), (.indirectX, 0xc1), (.indirectY, 0xd1)]
  | cpx => [(.immediate, 0xe0), (.zeroPage, 0xe4), (.absolute, 0xec)]
  | cpy => [(.immediate, 0xc0), (.zeroPage, 0xc4), (.absolute, 0xcc)]
  | dec => [(.zeroPage, 0xc6), (.zeroPageX, 0xd6), (.absolute, 0xce), (.absoluteX, 0xde)]
  | dex => [(.implied, 0xca)]
  | dey => [(.implied, 0x88)]
  | eor => [(.immediate, 0x49), (.zeroPage, 0x45), (.zeroPageX, 0x55), (.absolute, 0x4d),
      (.absoluteX, 0x5d), (.absoluteY, 0x59), (.indirectX, 0x41), (.indirectY, 0x51)]
  | inc => [(.zeroPage, 0xe6), (.zeroPageX, 0xf6), (.absolute, 0xee), (.absoluteX, 0xfe)]
  | inx => [(.implied, 0xe8)]
  | iny => [(.implied, 0xc8)]
  | jmp => [(.absolute, 0x4c), (.indirect, 0x6c)]
  | jsr => [(.absolute, 0x20)]
  | lda => [(.immediate, 0xa9), (.zeroPage, 0xa5), (.zeroPageX, 0xb5), (.absolute, 0xad),
      (.absoluteX, 0xbd), (.absoluteY, 0xb9), (.indirectX, 0xa1), (.indirectY, 0xb1)]
  | ldx => [(.immediate, 0xa2), (.zeroPage, 0xa6), (.zeroPageY, 0xb6), (.absolute, 0xae),
      (.absoluteY, 0xbe)]
  | ldy => [(.immediate, 0xa0), (.zeroPage, 0xa4), (.zeroPageX, 0xb4), (.absolute, 0xac),
      (.absoluteX, 0xbc)]
  | lsr => [(.accumulator, 0x4a), (.zeroPage, 0x46), (.zeroPageX, 0x56), (.absolute, 0x4e),
      (.absoluteX, 0x5e)]
  | nop => [(.implied, 0xea)]
  | ora => [(.immediate, 0x09), (.zeroPage, 0x05), (.zeroPageX, 0x15), (.absolute, 0x0d),
      (.absoluteX, 0x1d), (.absoluteY, 0x19), (.indirectX, 0x01), (.indirectY, 0x11)]
  | pha => [(.implied, 0x48)]
  | php => [(.implied, 0x08)]
  | pla => [(.implied, 0x68)]
  | plp => [(.implied, 0x28)]
  | rol => [(.accumulator, 0x2a), (.zeroPage, 0x26), (.zeroPageX, 0x36), (.absolute, 0x2e),
      (.absoluteX, 0x3e)]
  | ror => [(.accumulator, 0x6a), (.zeroPage, 0x66), (.zeroPageX, 0x76), (.absolute, 0x6e),
      (.absoluteX, 0x7e)]
  | rti => [(.implied, 0x40)]
  | rts => [(.implied, 0x60)]
  | sbc => [(.immediate, 0xe9), (.zeroPage, 0xe5), (.zeroPageX, 0xf5), (.absolute, 0xed),
      (.absoluteX, 0xfd), (.absoluteY, 0xf9), (.indirectX, 0xe1), (.indirectY, 0xf1)]
  | sec => [(.implied, 0x38)]
  | sed => [(.implied, 0xf8)]
  | sei => [(.implied, 0x78)]
  | sta => [(.zeroPage, 0x85), (.zeroPageX, 0x95), (.absolute, 0x8d), (.absoluteX, 0x9d),
      (.absoluteY, 0x99), (.indirectX, 0x81), (.indirectY, 0x91)]
  | stx => [(.zeroPage, 0x86), (.zeroPageY, 0x96), (.absolute, 0x8e)]
  | sty => [(.zeroPage, 0x84), (.zeroPageX, 0x94), (.absolute, 0x8c)]
  | tax => [(.implied, 0xaa)]
  | tay => [(.implied, 0xa8)]
  | tsx => [(.implied, 0xba)]
  | txa => [(.implied, 0x8a)]
  | txs => [(.implied, 0x9a)]
  | tya => [(.implied, 0x98)]

/-- The opcode byte of the instruction in a mode. -/
def opcode (m : Mnemonic) (mode : Mode) : Option UInt8 :=
  m.codes.lookup mode

/-! ### The tables agree -/

theorem mem_all (m : Mnemonic) : m ∈ all := by
  cases m <;> decide

theorem contains_modes_iff (m : Mnemonic) (mode : Mode) :
    m.modes.contains mode = true ↔ (m.opcode mode).isSome = true := by
  have h : ∀ m ∈ all, ∀ mode ∈ Mode.all, m.modes.contains mode = (m.opcode mode).isSome := by
    decide +kernel
  rw [h m m.mem_all mode mode.mem_all]

end Mnemonic

end Assembler6502
