/-
Finite maps as lists of pairs.

A `FiniteMap` is a list of keys with their values in which no key occurs
twice.  It is read through `get?`; the order of the pairs has no meaning.

* **`get?_insert`**, **`get?_erase`**, **`get?_filterKeys`** — each operation
  through `get?`;
* **`mem_pairs_iff`** — the pairs are exactly the bindings.
-/
namespace Assembler6502

structure FiniteMap (κ α : Type) where
  pairs : List (κ × α)
  distinct : pairs.Pairwise (·.1 ≠ ·.1)

namespace FiniteMap

variable {κ α : Type}

def empty : FiniteMap κ α := ⟨[], .nil⟩

/-- The bindings whose keys satisfy `p`. -/
def filterKeys (p : κ → Bool) (m : FiniteMap κ α) : FiniteMap κ α :=
  ⟨m.pairs.filter fun entry => p entry.1, m.distinct.filter _⟩

theorem mem_filterKeys {p : κ → Bool} {m : FiniteMap κ α} {entry : κ × α} :
    entry ∈ (m.filterKeys p).pairs ↔ entry ∈ m.pairs ∧ p entry.1 = true := by
  simp [filterKeys]

variable [DecidableEq κ]

/-- The value bound to a key. -/
def get? (m : FiniteMap κ α) (k : κ) : Option α :=
  m.pairs.lookup k

/-- Removes the binding of a key. -/
def erase (m : FiniteMap κ α) (k : κ) : FiniteMap κ α :=
  m.filterKeys fun other => other ≠ k

/-- Binds a key, in place of what it was bound to. -/
def insert (m : FiniteMap κ α) (k : κ) (v : α) : FiniteMap κ α :=
  ⟨(k, v) :: (m.erase k).pairs, by
    refine List.pairwise_cons.2 ⟨fun entry h => ?_, (m.erase k).distinct⟩
    have hk : entry.1 ≠ k := of_decide_eq_true (mem_filterKeys.1 h).2
    exact hk.symm⟩

/-! ### Laws -/

theorem mem_pairs_iff {m : FiniteMap κ α} {k : κ} {v : α} :
    (k, v) ∈ m.pairs ↔ m.get? k = some v := by
  obtain ⟨pairs, distinct⟩ := m
  induction pairs with
  | nil => simp [get?]
  | cons entry rest ih =>
    obtain ⟨other, value⟩ := entry
    obtain ⟨hhead, htail⟩ := List.pairwise_cons.1 distinct
    have ih := ih htail
    simp only [get?] at ih ⊢
    rw [List.mem_cons, List.lookup_cons]
    by_cases hk : k = other
    · subst hk
      have hnot : (k, v) ∉ rest := fun h => hhead _ h rfl
      simp [hnot, eq_comm]
    · have hb : (k == other) = false := beq_eq_false_iff_ne.2 hk
      simp [hk, hb, ih]

@[simp]
theorem get?_empty (k : κ) : (empty : FiniteMap κ α).get? k = none := rfl

theorem get?_eq_none_iff {m : FiniteMap κ α} {k : κ} :
    m.get? k = none ↔ ∀ v, (k, v) ∉ m.pairs := by
  constructor
  · intro h v hv
    rw [mem_pairs_iff, h] at hv
    cases hv
  · intro h
    cases hv : m.get? k with
    | none => rfl
    | some v => exact absurd (mem_pairs_iff.2 hv) (h v)

/-- Two maps bind alike when they hold the same pairs. -/
theorem get?_congr {m n : FiniteMap κ α} {k : κ}
    (h : ∀ v, (k, v) ∈ m.pairs ↔ (k, v) ∈ n.pairs) : m.get? k = n.get? k := by
  cases hn : n.get? k with
  | some v => exact mem_pairs_iff.1 ((h v).2 (mem_pairs_iff.2 hn))
  | none =>
    refine get?_eq_none_iff.2 fun v hv => ?_
    exact get?_eq_none_iff.1 hn v ((h v).1 hv)

@[simp]
theorem get?_filterKeys (p : κ → Bool) (m : FiniteMap κ α) (k : κ) :
    (m.filterKeys p).get? k = if p k then m.get? k else none := by
  by_cases hp : p k = true
  · rw [if_pos hp]
    exact get?_congr fun v => by simp [mem_filterKeys, hp]
  · rw [if_neg hp]
    exact get?_eq_none_iff.2 fun v hv => hp (mem_filterKeys.1 hv).2

@[simp]
theorem get?_erase (m : FiniteMap κ α) (k other : κ) :
    (m.erase k).get? other = if other = k then none else m.get? other := by
  rw [erase, get?_filterKeys]
  by_cases h : other = k <;> simp [h]

@[simp]
theorem get?_insert (m : FiniteMap κ α) (k other : κ) (v : α) :
    (m.insert k v).get? other = if other = k then some v else m.get? other := by
  by_cases h : other = k
  · subst h
    simp [insert, get?]
  · have hb : (other == k) = false := beq_eq_false_iff_ne.2 h
    have hl : (m.insert k v).get? other = (m.erase k).get? other := by
      simp [insert, get?, List.lookup_cons, hb]
    rw [hl, get?_erase, if_neg h, if_neg h]

end FiniteMap

end Assembler6502
