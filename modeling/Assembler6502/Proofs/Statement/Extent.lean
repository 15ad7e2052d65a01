/-
Where statements lead.

A statement takes up some bytes, and the next one stands behind them, unless it
names another address.  A scope statement leads into a scope or out of it.

* **`Statement.size`** — the number of bytes that a statement places;
* **`Statement.behind`** — the address of the next statement;
* **`Statement.pathBehind`** — the scope of the next statement;
* **`toInt_add_ofNat`** — addresses that do not reach `0x80000000` are added as
  integers.
-/
import Assembler6502.Statement

namespace Assembler6502

namespace Statement

/-- The number of bytes that a statement places. -/
def size : Statement → Nat
  | .instruction i => i.mode.size
  | .bytes data => data.length
  | .words data => 2 * data.length
  | _ => 0

/-- Where a statement at an address leads on: to the origin it names, or behind its bytes. -/
def behind (address : Int32) : Statement → Int32
  | .origin target => target
  | statement => address + Int32.ofNat statement.size

/-- The scope that is open behind a statement in a scope. -/
def pathBehind (path : List String) : Statement → List String
  | .openScope name => name :: path
  | .closeScope => path.tail
  | _ => path

end Statement

theorem length_wordBytes (words : List UInt16) : (wordBytes words).length = 2 * words.length := by
  induction words with
  | nil => rfl
  | cons w rest ih =>
    have hcons : wordBytes (w :: rest) = [w.toUInt8, (w >>> 8).toUInt8] ++ wordBytes rest := rfl
    rw [hcons, List.length_append, ih, List.length_cons]
    simp only [List.length_cons, List.length_nil]
    omega

theorem toInt_add_ofNat {v : Int32} {n : Nat} (hv : 0 ≤ v.toInt) (h : v.toInt + n < 0x80000000) :
    (v + Int32.ofNat n).toInt = v.toInt + n := by
  have hn : (Int32.ofNat n).toInt = n := Int32.toInt_ofNat_of_lt (by omega)
  rw [Int32.toInt_add, hn]
  exact Int.bmod_eq_of_le (by omega) (by omega)

end Assembler6502
