/-
The order of texts is the order of their bytes.

Texts are compared by their characters.  In UTF-8 the first byte of a character
tells how many bytes it has, a longer one starts with a larger byte, and of two
that are equally long the smaller character has the smaller bytes.  So the first
bytes that differ decide as the first characters that differ do.

* **`below_utf8EncodeChar`** — a smaller character has smaller bytes, whatever follows;
* **`lt_iff_bytes_lt`** — a text is smaller if and only if its bytes are.
-/
import Mathlib.Data.List.Lex
import Mathlib.Data.String.Basic
import Mathlib.Order.Defs.LinearOrder

namespace Assembler6502

namespace Text

/-- The bytes of a text in UTF-8. -/
def bytes (text : String) : List UInt8 := text.toUTF8.data.toList

theorem bytes_eq (text : String) : bytes text = text.toList.flatMap String.utf8EncodeChar := by
  conv => lhs; rw [← String.ofList_toList (s := text)]
  rw [bytes, String.toUTF8_eq_toByteArray, String.toByteArray_ofList]
  exact List.toList_data_toByteArray

/-- Whatever follows, the one list is before the other. -/
def Below (l l' : List UInt8) : Prop := ∀ x y, l ++ x < l' ++ y

theorem Below.of_lt {m n : Nat} {l l' : List UInt8} (h : m < n) (hn : n < 256) :
    Below (UInt8.ofNat m :: l) (UInt8.ofNat n :: l') := by
  intro x y
  refine .rel (UInt8.lt_iff_toNat_lt.mpr ?_)
  rw [UInt8.toNat_ofNat', UInt8.toNat_ofNat']
  omega

theorem Below.of_eq {m n : Nat} {l l' : List UInt8} (h : m = n) (hl : Below l l') :
    Below (UInt8.ofNat m :: l) (UInt8.ofNat n :: l') := by
  subst h
  exact fun x y => .cons (hl x y)

/-- A leading byte decides, and where it is the same, the bytes after it do. -/
theorem Below.of_le {m n : Nat} {l l' : List UInt8} (hle : m ≤ n) (hn : n < 256)
    (h : m = n → Below l l') : Below (UInt8.ofNat m :: l) (UInt8.ofNat n :: l') := by
  rcases Nat.lt_or_eq_of_le hle with hlt | heq
  · exact .of_lt hlt hn
  · exact .of_eq heq (h heq)

/-- A smaller character has smaller bytes, whatever follows them. -/
theorem below_utf8EncodeChar {c d : Char} (h : c < d) :
    Below (String.utf8EncodeChar c) (String.utf8EncodeChar d) := by
  have hlt : c.val.toNat < d.val.toNat := UInt32.lt_iff_toNat_lt.mp h
  have hd : d.val.toNat < 0x110000 := by
    rcases d.valid with hsmall | ⟨-, hlarge⟩
    · exact Nat.lt_trans hsmall (by decide)
    · exact hlarge
  unfold String.utf8EncodeChar
  generalize c.val.toNat = m at *
  generalize d.val.toNat = n at *
  dsimp only
  -- One goal for each pair of lengths.  A longer character starts with a larger byte, and a shorter
  -- one is not larger.
  split_ifs
  · exact .of_lt hlt (by omega)
  · exact .of_lt (by omega) (by omega)
  · exact .of_lt (by omega) (by omega)
  · exact .of_lt (by omega) (by omega)
  · omega
  · refine .of_le (by omega) (by omega) fun h1 => ?_
    exact .of_lt (by omega) (by omega)
  · exact .of_lt (by omega) (by omega)
  · exact .of_lt (by omega) (by omega)
  · omega
  · omega
  · refine .of_le (by omega) (by omega) fun h1 => ?_
    refine .of_le (by omega) (by omega) fun h2 => ?_
    exact .of_lt (by omega) (by omega)
  · exact .of_lt (by omega) (by omega)
  · omega
  · omega
  · omega
  · refine .of_le (by omega) (by omega) fun h1 => ?_
    refine .of_le (by omega) (by omega) fun h2 => ?_
    refine .of_le (by omega) (by omega) fun h3 => ?_
    exact .of_lt (by omega) (by omega)

theorem flatMap_utf8EncodeChar_lt {l l' : List Char} (h : l < l') :
    l.flatMap String.utf8EncodeChar < l'.flatMap String.utf8EncodeChar := by
  induction h with
  | @nil c l' =>
    rw [List.flatMap_nil, List.flatMap_cons]
    obtain ⟨b, rest, hb⟩ := List.exists_cons_of_ne_nil (String.utf8EncodeChar_ne_nil (c := c))
    rw [hb]
    exact .nil
  | rel h =>
    rw [List.flatMap_cons, List.flatMap_cons]
    exact below_utf8EncodeChar h _ _
  | @cons c l l' h ih =>
    rw [List.flatMap_cons, List.flatMap_cons]
    exact List.append_left_lt ih

theorem bytes_lt_of_lt {a b : String} (h : a < b) : bytes a < bytes b := by
  rw [bytes_eq, bytes_eq]
  exact flatMap_utf8EncodeChar_lt (String.lt_iff_toList_lt.mp h)

/-- A text is before another if and only if its bytes are. -/
theorem lt_iff_bytes_lt {a b : String} : a < b ↔ bytes a < bytes b := by
  refine ⟨bytes_lt_of_lt, fun h => ?_⟩
  rcases lt_trichotomy a b with hlt | heq | hgt
  · exact hlt
  · rw [heq] at h
    exact absurd h (List.lt_irrefl _)
  · exact absurd h (List.lt_asymm (bytes_lt_of_lt hgt))

theorem le_iff_bytes_le {a b : String} : a ≤ b ↔ bytes a ≤ bytes b := by
  rw [← not_lt, ← List.not_lt, lt_iff_bytes_lt]

end Text

end Assembler6502
