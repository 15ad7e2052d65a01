/-
Hexadecimal numerals that are printed and read.

* **`Hexadecimal.digits`** — the digits of a number, filled up to a length;
* **`mem_digits`** — they are the sixteen lower-case digits;
* **`natural?_digits`** — they are read as the number.
-/
import Assembler6502.Image

namespace Assembler6502

namespace Hexadecimal

/-- The digits of a number, with zeros in front up to a length. -/
def digits (length n : Nat) : List Char :=
  (Nat.toDigits 16 n).leftpad length '0'

theorem byte_eq (b : UInt8) : byte b = digits 2 b.toNat :=
  rfl

theorem mem_toDigits {n : Nat} {c : Char} (h : c ∈ Nat.toDigits 16 n) :
    ∃ d < 16, c = Nat.digitChar d := by
  induction n using Nat.strongRecOn with
  | ind n ih =>
    by_cases hn : n < 16
    · rw [Nat.toDigits_of_lt_base hn, List.mem_singleton] at h
      exact ⟨n, hn, h⟩
    · rw [Nat.toDigits_of_base_le (by decide) (Nat.le_of_not_lt hn), List.mem_append,
        List.mem_singleton] at h
      rcases h with h | rfl
      · exact ih (n / 16) (by omega) h
      · exact ⟨n % 16, Nat.mod_lt _ (by decide), rfl⟩

theorem mem_digits {length n : Nat} {c : Char} (h : c ∈ digits length n) :
    ∃ d < 16, c = Nat.digitChar d := by
  rcases List.mem_append.mp h with h | h
  · exact ⟨0, by decide, List.eq_of_mem_replicate h⟩
  · exact mem_toDigits h

theorem digits_ne_nil (length n : Nat) : digits length n ≠ [] := by
  intro h
  exact Nat.toDigits_ne_nil (List.append_eq_nil_iff.mp h).2

/-- What holds of the sixteen digits holds of all digits of a number. -/
theorem forall_mem_digits {p : Char → Bool} (hp : ∀ d < 16, p (Nat.digitChar d) = true)
    (length n : Nat) : ∀ c ∈ digits length n, p c = true := by
  intro c hc
  obtain ⟨d, hd, rfl⟩ := mem_digits hc
  exact hp d hd

end Hexadecimal

namespace Radix

open Assembler6502.Hexadecimal

/-! ### Values -/

theorem digit?_digitChar : ∀ d < 16, hexadecimal.digit? (Nat.digitChar d) = some d := by
  decide

theorem natural?_append_digit {digits : List Char} {n d : Nat}
    (h : hexadecimal.natural? digits = some n) (hd : d < 16) :
    hexadecimal.natural? (digits ++ [Nat.digitChar d]) = some (n * 16 + d) := by
  unfold natural? at h ⊢
  rw [List.foldlM_append, h]
  simp [digit?_digitChar d hd, base]

theorem natural?_toDigits (n : Nat) : hexadecimal.natural? (Nat.toDigits 16 n) = some n := by
  induction n using Nat.strongRecOn with
  | ind n ih =>
    by_cases hn : n < 16
    · rw [Nat.toDigits_of_lt_base hn]
      have hdigit := natural?_append_digit (show hexadecimal.natural? [] = some 0 from rfl) hn
      rw [Nat.zero_mul, Nat.zero_add] at hdigit
      exact hdigit
    · rw [Nat.toDigits_of_base_le (by decide) (Nat.le_of_not_lt hn),
        natural?_append_digit (ih (n / 16) (by omega)) (Nat.mod_lt _ (by decide))]
      congr 1
      omega

/-- Zeros in front do not count. -/
theorem natural?_replicate (k : Nat) (digits : List Char) :
    hexadecimal.natural? (List.replicate k '0' ++ digits) = hexadecimal.natural? digits := by
  induction k with
  | zero => rfl
  | succ k ih =>
    rw [List.replicate_succ]
    exact ih

/-- The digits of a number have the number for their value. -/
theorem natural?_digits (length n : Nat) :
    hexadecimal.natural? (Hexadecimal.digits length n) = some n := by
  unfold Hexadecimal.digits List.leftpad
  rw [natural?_replicate, natural?_toDigits]

end Radix

end Assembler6502
