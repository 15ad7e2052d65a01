/-
Scopes in an arena.

The scopes are kept in one array and refer to each other by index.  A scope
has the symbols of its names and, by name, the scopes that were opened inside
it.  Scopes are only added: one that is closed stays where it is and is found
again by its name.  The open scopes are a stack of indices above the outermost
scope, which has index 0 and is never closed.

* **`Arena.enter?`** — goes to the scope of that name, which is added if it is new;
* **`Arena.walk`** — goes through all scopes with a worklist;
* **`Arena.entries`** — every bound value under its qualified name, sorted;
* **`Arena.nameTable`** — an arena as a table of names.
-/
import Assembler6502.Scope.Request

namespace Assembler6502

/-- A scope with the symbols and the scopes in it. -/
structure ScopeNode where
  name : String
  symbols : FiniteMap String Symbol
  children : FiniteMap String Nat

/-- A scope with nothing in it. -/
def ScopeNode.fresh (name : String) : ScopeNode := ⟨name, .empty, .empty⟩

structure Arena where
  scopes : Array ScopeNode
  /-- The open scopes inside the outermost one, the innermost first. -/
  opened : List Nat

namespace Arena

def empty : Arena := ⟨#[.fresh "global"], []⟩

/-- The open scopes, the innermost first. -/
def chain (t : Arena) : List Nat := t.opened ++ [0]

/-- The innermost open scope. -/
def current (t : Arena) : Nat := t.opened.headD 0

/-- How many scopes are open inside the outermost one. -/
def depth (t : Arena) : Nat := t.opened.length

/-! ### Single scopes -/

/-- The symbol of a name in one scope. -/
def symbolIn (t : Arena) (id : Nat) (name : String) : Option Symbol :=
  t.scopes[id]?.bind fun scope => scope.symbols.get? name

/-- The scope of that name inside a scope. -/
def child? (t : Arena) (id : Nat) (name : String) : Option Nat :=
  t.scopes[id]?.bind fun scope => scope.children.get? name

def nameOf (t : Arena) (id : Nat) : String :=
  (t.scopes[id]?.map ScopeNode.name).getD ""

/-- The names of the open scopes, the innermost first. -/
def path (t : Arena) : List String := t.opened.map t.nameOf

/-- The names of the open scopes from the outside in, joined by dots. -/
def pathText (t : Arena) : String :=
  ".".intercalate t.path.reverse

/-! ### Lookup -/

/-- The innermost binding of a name. -/
def lookup (t : Arena) (name : String) : Option Symbol :=
  t.chain.findSome? fun id => t.symbolIn id name

/-- The binding of a name in the scope that is open. -/
def lookupLocal (t : Arena) (name : String) : Option Symbol :=
  t.symbolIn t.current name

/-- The innermost binding of a name that has a value. -/
def resolve (t : Arena) (name : String) : Option Definition :=
  t.chain.findSome? fun id => (t.symbolIn id name).bind Symbol.definition?

/-- The names with a value in one scope, qualified by the text before them. -/
def values (t : Arena) (item : Nat × String) : List (String × Definition) :=
  t.scopes[item.1]?.elim [] fun scope =>
    scope.symbols.pairs.filterMap fun (name, symbol) =>
      symbol.definition?.map fun d => (item.2 ++ name, d)

/-- The scopes inside one scope, each with the text before its names. -/
def inside (t : Arena) (item : Nat × String) : List (Nat × String) :=
  t.scopes[item.1]?.elim [] fun scope =>
    scope.children.pairs.map fun (name, child) => (child, item.2 ++ name ++ ".")

/-- The scopes in the order in which they are taken from the worklist.  Each of them puts the scopes
inside it on the list.  The number of steps is bounded. -/
def walk (t : Arena) : Nat → List (Nat × String) → List (Nat × String)
  | 0, _ => []
  | _ + 1, [] => []
  | steps + 1, item :: pending => item :: t.walk steps (t.inside item ++ pending)

/-- Every name that has a value, qualified and sorted.  No scope is visited twice, so there are no
more steps than scopes. -/
def entries (t : Arena) : List (String × Definition) :=
  ((t.walk t.scopes.size [(0, "")]).flatMap t.values).mergeSort fun a b => a.1 ≤ b.1

/-! ### Changes -/

/-- Changes the symbols of one scope. -/
def modifySymbols (t : Arena) (id : Nat)
    (f : FiniteMap String Symbol → FiniteMap String Symbol) : Arena :=
  { t with scopes := t.scopes.modify id fun scope => { scope with symbols := f scope.symbols } }

/-- Binds a name in the open scope. -/
def insert (t : Arena) (name : String) (symbol : Symbol) : Arena :=
  t.modifySymbols t.current fun symbols => symbols.insert name symbol

/-- Removes a name from the open scope. -/
def erase (t : Arena) (name : String) : Arena :=
  t.modifySymbols t.current fun symbols => symbols.erase name

/-- How many scopes bind a name. -/
def count (t : Arena) (name : String) : Nat :=
  t.scopes.countP fun scope => (scope.symbols.get? name).isSome

/-- Removes a name from every scope. -/
def eraseEverywhere (t : Arena) (name : String) : Arena :=
  { t with scopes := t.scopes.map fun scope =>
      { scope with symbols := scope.symbols.erase name } }

/-- Adds a scope inside the open one and opens it. -/
def addChild (t : Arena) (name : String) : Arena where
  scopes := (t.scopes.modify t.current fun scope =>
    { scope with children := scope.children.insert name t.scopes.size }).push (.fresh name)
  opened := t.scopes.size :: t.opened

/-- Opens the scope of that name inside the open one, unless the nesting is too deep. -/
def enter? (t : Arena) (name : String) : Option Arena :=
  if t.chain.length < levelLimit then
    match t.child? t.current name with
    | some id => some { t with opened := id :: t.opened }
    | none => some (t.addChild name)
  else none

/-- Closes the open scope, unless it is the outermost one. -/
def leave? (t : Arena) : Option Arena :=
  match t.opened with
  | [] => none
  | _ :: outer => some { t with opened := outer }

/-- Closes all scopes but the outermost one. -/
def rewind (t : Arena) : Arena := { t with opened := [] }

def nameTable : NameTable Arena where
  empty := Arena.empty
  insert := Arena.insert
  erase := Arena.erase
  eraseEverywhere := Arena.eraseEverywhere
  enter? := Arena.enter?
  leave? := Arena.leave?
  rewind := Arena.rewind
  lookup := Arena.lookup
  lookupLocal := Arena.lookupLocal
  resolve := Arena.resolve
  count := Arena.count
  entries := Arena.entries
  pathText := Arena.pathText
  depth := Arena.depth

end Arena

end Assembler6502
