/-
Names and scopes.

A procedure opens a scope, and scopes nest.  A scope is known by the path of
names that leads to it, and a name is bound in a scope, so the table of names
is a finite map from scope and name to a symbol.  A scope that is closed keeps
its bindings and finds them again when it is reopened.

* **`Scopes.lookup`** — the binding of the innermost open scope that has one;
* **`Scopes.resolve`** — the same, over bindings that have a value;
* **`Scopes.entries`** — every bound value under its qualified name, sorted;
* **`symbolAt_insert`**, **`symbolAt_erase`**, **`symbolAt_eraseEverywhere`** — what the
  operations do to the binding of a name in a scope.

Design notes.  A path has the innermost scope first, so the scopes around a
scope are the tails of its path.  A name that is read before it has a value is
bound to a symbol without one; such bindings never hide a value further out
from `resolve`.
-/
import Assembler6502.FiniteMap

namespace Assembler6502

inductive SymbolKind where
  /-- A name bound by an assignment, or one that is not bound yet. -/
  | identifier
  /-- An address. -/
  | label
deriving DecidableEq, Repr

/-- What is known of a name. -/
structure Symbol where
  kind : SymbolKind
  value : Option Int32
deriving DecidableEq, Repr

/-- A name's kind together with its value. -/
structure Definition where
  kind : SymbolKind
  value : Int32
deriving DecidableEq, Repr

def Symbol.definition? (s : Symbol) : Option Definition :=
  s.value.map fun v => ⟨s.kind, v⟩

/-- A name in a scope; the scope is the path of its names, the innermost first. -/
structure ScopedName where
  scope : List String
  name : String
deriving DecidableEq, Repr

/-- The name with the scopes around it, joined by dots. -/
def ScopedName.qualified (n : ScopedName) : String :=
  ".".intercalate (n.name :: n.scope).reverse

/-- The order of a listing: by qualified name.  A dot may be part of a name, so names of different
scopes can look alike; of these the one further out is first. -/
def ScopedName.precedes (a b : ScopedName) : Bool :=
  if a.qualified = b.qualified then a.scope.length ≤ b.scope.length
  else a.qualified ≤ b.qualified

/-- The number of levels of nesting, the outermost scope included. -/
def levelLimit : Nat := 16

/-- The table of names with the scope that is open. -/
structure Scopes where
  path : List String
  table : FiniteMap ScopedName Symbol
  bounded : path.length < levelLimit

namespace Scopes

def empty : Scopes := ⟨[], .empty, by decide⟩

/-- How many scopes are open inside the outermost one. -/
def depth (s : Scopes) : Nat := s.path.length

/-- The names of the open scopes from the outside in, joined by dots. -/
def pathText (s : Scopes) : String :=
  ".".intercalate s.path.reverse

/-! ### Lookup -/

/-- The binding of a name in one scope. -/
def symbolAt (s : Scopes) (scope : List String) (name : String) : Option Symbol :=
  s.table.get? ⟨scope, name⟩

/-- The scope of a path and the scopes around it, the innermost first. -/
def enclosing : List String → List (List String)
  | [] => [[]]
  | name :: outer => (name :: outer) :: enclosing outer

/-- The innermost binding of a name. -/
def lookup (s : Scopes) (name : String) : Option Symbol :=
  (enclosing s.path).findSome? fun scope => s.symbolAt scope name

/-- The binding of a name in the scope that is open. -/
def lookupLocal (s : Scopes) (name : String) : Option Symbol :=
  s.symbolAt s.path name

/-- The innermost binding of a name that has a value. -/
def resolve (s : Scopes) (name : String) : Option Definition :=
  (enclosing s.path).findSome? fun scope => (s.symbolAt scope name).bind Symbol.definition?

/-- Every name that has a value. -/
def definitions (s : Scopes) : List (ScopedName × Definition) :=
  s.table.pairs.filterMap fun (name, symbol) => symbol.definition?.map fun d => (name, d)

/-- Every name that has a value, qualified and sorted. -/
def entries (s : Scopes) : List (String × Definition) :=
  (s.definitions.mergeSort fun a b => a.1.precedes b.1).map fun (name, d) => (name.qualified, d)

/-! ### Changes -/

/-- Binds a name in the open scope. -/
def insert (s : Scopes) (name : String) (symbol : Symbol) : Scopes :=
  { s with table := s.table.insert ⟨s.path, name⟩ symbol }

/-- Removes a name from the open scope. -/
def erase (s : Scopes) (name : String) : Scopes :=
  { s with table := s.table.erase ⟨s.path, name⟩ }

/-- How many scopes bind a name. -/
def count (s : Scopes) (name : String) : Nat :=
  s.table.pairs.countP fun entry => entry.1.name = name

/-- Removes a name from every scope. -/
def eraseEverywhere (s : Scopes) (name : String) : Scopes :=
  { s with table := s.table.filterKeys fun key => key.name ≠ name }

/-- Opens the scope of that name inside the open one, unless the nesting is too deep. -/
def enter? (s : Scopes) (name : String) : Option Scopes :=
  if h : s.path.length + 1 < levelLimit then some ⟨name :: s.path, s.table, h⟩ else none

/-- Closes the open scope, unless it is the outermost one. -/
def leave? (s : Scopes) : Option Scopes :=
  match h : s.path with
  | [] => none
  | _ :: outer =>
    some ⟨outer, s.table, by
      have hb := s.bounded
      rw [h, List.length_cons] at hb
      omega⟩

/-- Closes all scopes but the outermost one. -/
def rewind (s : Scopes) : Scopes :=
  ⟨[], s.table, by decide⟩

/-! ### Laws -/

@[simp]
theorem symbolAt_insert (s : Scopes) (name : String) (symbol : Symbol) (scope : List String)
    (other : String) :
    (s.insert name symbol).symbolAt scope other =
      if scope = s.path ∧ other = name then some symbol else s.symbolAt scope other := by
  simp [symbolAt, insert]

@[simp]
theorem symbolAt_erase (s : Scopes) (name : String) (scope : List String) (other : String) :
    (s.erase name).symbolAt scope other =
      if scope = s.path ∧ other = name then none else s.symbolAt scope other := by
  simp [symbolAt, erase]

@[simp]
theorem symbolAt_eraseEverywhere (s : Scopes) (name : String) (scope : List String) (other : String) :
    (s.eraseEverywhere name).symbolAt scope other =
      if other = name then none else s.symbolAt scope other := by
  by_cases h : other = name <;> simp [symbolAt, eraseEverywhere, h]

@[simp]
theorem symbolAt_rewind (s : Scopes) : s.rewind.symbolAt = s.symbolAt := rfl

theorem symbolAt_enter? {s t : Scopes} {name : String} (h : s.enter? name = some t) : t.symbolAt = s.symbolAt := by
  unfold enter? at h
  split at h <;> cases h
  rfl

theorem symbolAt_leave? {s t : Scopes} (h : s.leave? = some t) : t.symbolAt = s.symbolAt := by
  unfold leave? at h
  split at h <;> cases h
  rfl

end Scopes

end Assembler6502
