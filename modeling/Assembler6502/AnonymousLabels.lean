/-
Anonymous labels.

An `@` marks an address without naming it.  The first pass records the marked
addresses by the level of nesting they stand on; the second pass refers to
them as the next one forward or the last one back.

* **`resolveForward`** — the first mark beyond an address;
* **`resolveBackward`** — the last mark at or before it, and the last mark of
  all if every one lies ahead.
-/
import Assembler6502.Scope

namespace Assembler6502

/-- The marks in source order, each with its level. -/
structure AnonymousLabels where
  marks : List (Nat × Int32)
deriving DecidableEq, Repr

namespace AnonymousLabels

def empty : AnonymousLabels := ⟨[]⟩

/-- Records a mark; there are as many levels as scopes can nest. -/
def record (labels : AnonymousLabels) (level : Nat) (address : Int32) : AnonymousLabels :=
  if level < levelLimit then ⟨labels.marks ++ [(level, address)]⟩ else labels

/-- The addresses marked on one level, in source order. -/
def level (labels : AnonymousLabels) (n : Nat) : List Int32 :=
  (labels.marks.filter fun mark => mark.1 = n).map Prod.snd

/-- The number of marks on all levels. -/
def count (labels : AnonymousLabels) : Nat :=
  labels.marks.length

def resolveForward (addresses : List Int32) (address : Int32) : Option Int32 :=
  addresses.find? fun mark => mark > address

def resolveBackward (addresses : List Int32) (address : Int32) : Option Int32 :=
  (addresses.reverse.find? fun mark => mark ≤ address).or addresses.getLast?

theorem level_record {labels : AnonymousLabels} {n m : Nat} {address : Int32}
    (h : n < levelLimit) :
    (labels.record n address).level m =
      if m = n then labels.level m ++ [address] else labels.level m := by
  by_cases hm : m = n
  · subst hm
    simp [record, level, h]
  · simp [record, level, h, hm, Ne.symm hm]

end AnonymousLabels

end Assembler6502
