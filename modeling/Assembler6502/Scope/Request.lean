/-
Requests to a table of names.

Whoever holds a table of names changes it and asks it in a few ways.  A
`Request` is one of these, and an `Answer` is what comes back.  A `NameTable`
has a function for each of them, so that different tables can be held against
each other by their answers.

* **`NameTable.respond`** — the answer to one request;
* **`NameTable.answers`** — the answers to a list of requests;
* **`Scopes.nameTable`** — scopes as a table of names.
-/
import Assembler6502.Scope

namespace Assembler6502

inductive Request where
  /-- Bind a name in the open scope. -/
  | insert (name : String) (symbol : Symbol)
  /-- Remove a name from the open scope, and give what it was bound to. -/
  | remove (name : String)
  /-- Remove a name from all scopes, and say how many had it. -/
  | removeEverywhere (name : String)
  /-- Open a scope inside the open one. -/
  | enter (name : String)
  /-- Close the open scope. -/
  | leave
  /-- Close all scopes but the outermost one. -/
  | rewind
  /-- Forget all names and scopes. -/
  | clear
  /-- The innermost binding of a name. -/
  | lookup (name : String)
  /-- The binding of a name in the open scope. -/
  | lookupLocal (name : String)
  /-- The innermost binding of a name that has a value. -/
  | resolve (name : String)
  /-- All names with a value. -/
  | entries
  /-- The names of the open scopes. -/
  | path
  /-- The number of open scopes inside the outermost one. -/
  | depth
deriving DecidableEq, Repr

inductive Answer where
  | done
  | symbol (symbol : Option Symbol)
  | definition (definition : Option Definition)
  | count (count : Nat)
  | accepted (accepted : Bool)
  | entries (entries : List (String × Definition))
  | path (text : String)
  | depth (depth : Nat)
deriving DecidableEq, Repr

/-- The ways to change and to ask a table of names. -/
structure NameTable (σ : Type) where
  empty : σ
  insert : σ → String → Symbol → σ
  erase : σ → String → σ
  eraseEverywhere : σ → String → σ
  enter? : σ → String → Option σ
  leave? : σ → Option σ
  rewind : σ → σ
  lookup : σ → String → Option Symbol
  lookupLocal : σ → String → Option Symbol
  resolve : σ → String → Option Definition
  count : σ → String → Nat
  entries : σ → List (String × Definition)
  pathText : σ → String
  depth : σ → Nat

namespace NameTable

variable {σ : Type} (table : NameTable σ)

/-- The answer to a request, and the state of the table after it. -/
def respond (s : σ) : Request → Answer × σ
  | .insert name symbol => (.done, table.insert s name symbol)
  | .remove name => (.symbol (table.lookupLocal s name), table.erase s name)
  | .removeEverywhere name => (.count (table.count s name), table.eraseEverywhere s name)
  | .enter name => (.accepted (table.enter? s name).isSome, (table.enter? s name).getD s)
  | .leave => (.accepted (table.leave? s).isSome, (table.leave? s).getD s)
  | .rewind => (.done, table.rewind s)
  | .clear => (.done, table.empty)
  | .lookup name => (.symbol (table.lookup s name), s)
  | .lookupLocal name => (.symbol (table.lookupLocal s name), s)
  | .resolve name => (.definition (table.resolve s name), s)
  | .entries => (.entries (table.entries s), s)
  | .path => (.path (table.pathText s), s)
  | .depth => (.depth (table.depth s), s)

/-- The answers to requests, each made of the state that the ones before it left. -/
def answers : σ → List Request → List Answer
  | _, [] => []
  | s, request :: rest => (table.respond s request).1 :: answers (table.respond s request).2 rest

end NameTable

def Scopes.nameTable : NameTable Scopes where
  empty := Scopes.empty
  insert := Scopes.insert
  erase := Scopes.erase
  eraseEverywhere := Scopes.eraseEverywhere
  enter? := Scopes.enter?
  leave? := Scopes.leave?
  rewind := Scopes.rewind
  lookup := Scopes.lookup
  lookupLocal := Scopes.lookupLocal
  resolve := Scopes.resolve
  count := Scopes.count
  entries := Scopes.entries
  pathText := Scopes.pathText
  depth := Scopes.depth

end Assembler6502
