/-
Names by scope path.

What a table of names is to do can be said without a table: there is a path of
open scopes, and a name has at most one symbol in the scope of each path.  A
`Naming` is these two, and it says which answer a request must get and what the
request changes.  A path is written from the outside in here, so that the scopes
around a scope are the beginnings of its path.

* **`Naming.next`** — what a request changes;
* **`Naming.Allows`** — the answer that a request must get;
* **`Naming.Accepts`** — the answers that a list of requests must get;
* **`Naming.length_path_after`** — at most fifteen scopes are open;
* **`Naming.Accepts.unique`** — if no name has a dot, there is only one list of answers.

Design notes.  A `Naming` has no list of its bindings.  A request that counts
bindings or lists them gets its answer from any list that has each of them once.
Where names have dots, two of them can look alike in a listing, and their order
is left open.
-/
import Assembler6502.Proofs.Text.ByteOrder
import Assembler6502.Scope.Request
import Mathlib.Data.List.Perm.Lattice

namespace Assembler6502

structure Naming where
  /-- The names of the open scopes inside the outermost one, from the outside in. -/
  path : List String
  /-- The symbol of a name in the scope of a path. -/
  symbol : List String → String → Option Symbol

namespace Naming

def empty : Naming := ⟨[], fun _ _ => none⟩

/-- Gives a name of the open scope a symbol, or takes it away. -/
def set (m : Naming) (name : String) (symbol : Option Symbol) : Naming where
  path := m.path
  symbol path other := if path = m.path ∧ other = name then symbol else m.symbol path other

/-- The names after a request. -/
def next (m : Naming) : Request → Naming
  | .insert name symbol => m.set name (some symbol)
  | .remove name => m.set name none
  | .removeEverywhere name =>
    { m with symbol := fun path other => if other = name then none else m.symbol path other }
  | .enter name => if m.path.length < 15 then { m with path := m.path ++ [name] } else m
  | .leave => { m with path := m.path.dropLast }
  | .rewind => { m with path := [] }
  | .clear => empty
  | .lookup _ | .lookupLocal _ | .resolve _ | .entries | .path | .depth => m

/-- The names after some requests. -/
def after (m : Naming) (requests : List Request) : Naming := requests.foldl next m

/-- The value of a name in the scope of a path. -/
def definition? (m : Naming) (path : List String) (name : String) : Option Definition :=
  (m.symbol path name).bind Symbol.definition?

/-- A name behind the names of the scopes around it. -/
def qualified (path : List String) (name : String) : String := ".".intercalate (path ++ [name])

/-- No name that has a value has a dot, nor has a scope around it. -/
def Plain (m : Naming) : Prop :=
  ∀ path name, (m.definition? path name).isSome → ∀ word ∈ path ++ [name], '.' ∉ word.toList

/-- A list of all names that have a value, in the order of their bytes. -/
structure Lists (m : Naming) (entries : List (String × Definition)) : Prop where
  mem_iff : ∀ text d, (text, d) ∈ entries ↔
    ∃ path name, m.definition? path name = some d ∧ text = qualified path name
  sorted : entries.Pairwise fun a b => Text.bytes a.1 ≤ Text.bytes b.1
  increasing : m.Plain → entries.Pairwise fun a b => Text.bytes a.1 < Text.bytes b.1

/-- The answer to a request. -/
inductive Allows (m : Naming) : Request → Answer → Prop
  | insert {name : String} {symbol : Symbol} : m.Allows (.insert name symbol) .done
  | remove {name : String} : m.Allows (.remove name) (.symbol (m.symbol m.path name))
  | removeEverywhere {name : String} {paths : List (List String)} (distinct : paths.Nodup)
      (mem_iff : ∀ path, path ∈ paths ↔ (m.symbol path name).isSome) :
      m.Allows (.removeEverywhere name) (.count paths.length)
  | enter {name : String} : m.Allows (.enter name) (.accepted (m.path.length < 15))
  | leave : m.Allows .leave (.accepted (m.path ≠ []))
  | rewind : m.Allows .rewind .done
  | clear : m.Allows .clear .done
  | lookup {name : String} : m.Allows (.lookup name)
      (.symbol (m.path.inits.reverse.findSome? fun path => m.symbol path name))
  | lookupLocal {name : String} :
      m.Allows (.lookupLocal name) (.symbol (m.symbol m.path name))
  | resolve {name : String} : m.Allows (.resolve name)
      (.definition (m.path.inits.reverse.findSome? fun path => m.definition? path name))
  | entries {entries : List (String × Definition)} (lists : m.Lists entries) :
      m.Allows .entries (.entries entries)
  | path : m.Allows .path (.path (".".intercalate m.path))
  | depth : m.Allows .depth (.depth m.path.length)

/-- The answers to requests that are made one after the other. -/
inductive Accepts : Naming → List Request → List Answer → Prop
  | nil {m : Naming} : m.Accepts [] []
  | cons {m : Naming} {request : Request} {answer : Answer} {requests : List Request}
      {answers : List Answer} (first : m.Allows request answer)
      (rest : (m.next request).Accepts requests answers) :
      m.Accepts (request :: requests) (answer :: answers)

/-! ### Depth -/

theorem length_path_next {m : Naming} (h : m.path.length ≤ 15) (request : Request) :
    (m.next request).path.length ≤ 15 := by
  cases request with
  | enter name =>
    simp only [next]
    split
    · rw [List.length_append]
      exact ‹m.path.length < 15›
    · exact h
  | leave => exact (List.dropLast_sublist m.path).length_le.trans h
  | rewind | clear => exact Nat.zero_le _
  | _ => exact h

/-- No more than fifteen scopes are ever open inside the outermost one. -/
theorem length_path_after {m : Naming} (h : m.path.length ≤ 15) (requests : List Request) :
    (m.after requests).path.length ≤ 15 := by
  induction requests generalizing m with
  | nil => exact h
  | cons request requests ih => exact ih (length_path_next h request)

/-! ### Names without dots -/

/-- Without dots a qualified name can be taken apart. -/
theorem qualified_inj {path path' : List String} {name name' : String}
    (h : ∀ word ∈ path ++ [name], '.' ∉ word.toList)
    (h' : ∀ word ∈ path' ++ [name'], '.' ∉ word.toList)
    (heq : qualified path name = qualified path' name') : path = path' ∧ name = name' := by
  have hsplit : ∀ words : List String, words ≠ [] → (∀ word ∈ words, '.' ∉ word.toList) →
      (".".intercalate words).toList.splitOn '.' = words.map String.toList := by
    intro words hne hwords
    rw [String.toList_intercalate]
    refine List.splitOn_intercalate '.' ?_ (by simpa using hne)
    intro word hword
    obtain ⟨w, hw, rfl⟩ := List.mem_map.mp hword
    exact hwords w hw
  have hwords : (path ++ [name]).map String.toList = (path' ++ [name']).map String.toList := by
    rw [← hsplit _ (by simp) h, ← hsplit _ (by simp) h']
    exact congrArg (fun text => text.toList.splitOn '.') heq
  have hwords : path ++ [name] = path' ++ [name'] :=
    List.map_injective_iff.mpr (fun _ _ => String.toList_inj.mp) hwords
  obtain ⟨hpath, hname⟩ := List.append_inj' hwords rfl
  exact ⟨hpath, List.cons.inj hname |>.1⟩

/-- No name of an open scope has a dot, and no bound name or scope around it has one. -/
structure Undotted (m : Naming) : Prop where
  path : ∀ word ∈ m.path, '.' ∉ word.toList
  symbol : ∀ path name, (m.symbol path name).isSome → ∀ word ∈ path ++ [name], '.' ∉ word.toList

theorem undotted_empty : empty.Undotted := ⟨nofun, nofun⟩

theorem Undotted.plain {m : Naming} (h : m.Undotted) : m.Plain := by
  intro path name hvalue
  refine h.symbol path name ?_
  obtain ⟨d, hd⟩ := Option.isSome_iff_exists.mp hvalue
  obtain ⟨symbol, hsymbol, -⟩ := Option.bind_eq_some_iff.mp hd
  exact Option.isSome_iff_exists.mpr ⟨symbol, hsymbol⟩

end Naming

/-- A request that brings in no name with a dot. -/
def Request.Plain : Request → Prop
  | .insert name _ | .enter name => '.' ∉ name.toList
  | _ => True

namespace Naming

theorem Undotted.next {m : Naming} (h : m.Undotted) {request : Request} (hr : request.Plain) :
    (m.next request).Undotted := by
  cases request with
  | insert name symbol =>
    refine ⟨h.path, fun path other hbound => ?_⟩
    simp only [Naming.next, set] at hbound
    split at hbound
    · next heq =>
      obtain ⟨rfl, rfl⟩ := heq
      intro word hword
      rcases List.mem_append.mp hword with hword | hword
      · exact h.path word hword
      · cases List.mem_singleton.mp hword
        exact hr
    · exact h.symbol path other hbound
  | remove name =>
    refine ⟨h.path, fun path other hbound => ?_⟩
    simp only [Naming.next, set] at hbound
    split at hbound
    · cases hbound
    · exact h.symbol path other hbound
  | removeEverywhere name =>
    refine ⟨h.path, fun path other hbound => ?_⟩
    simp only [Naming.next] at hbound
    split at hbound
    · cases hbound
    · exact h.symbol path other hbound
  | enter name =>
    simp only [Naming.next]
    split
    · refine ⟨fun word hword => ?_, h.symbol⟩
      rcases List.mem_append.mp hword with hword | hword
      · exact h.path word hword
      · cases List.mem_singleton.mp hword
        exact hr
    · exact h
  | leave => exact ⟨fun word hword => h.path word (List.dropLast_subset _ hword), h.symbol⟩
  | rewind => exact ⟨nofun, h.symbol⟩
  | clear => exact undotted_empty
  | _ => exact h

/-! ### One list of answers -/

variable {m : Naming}

theorem Lists.unique {entries entries' : List (String × Definition)} (hplain : m.Plain)
    (h : m.Lists entries) (h' : m.Lists entries') : entries = entries' := by
  have hne : ∀ {a b : String × Definition}, Text.bytes a.1 < Text.bytes b.1 → a ≠ b := by
    rintro a b hlt rfl
    exact List.lt_irrefl _ hlt
  have hperm : entries.Perm entries' := by
    refine (List.perm_ext_iff_of_nodup ((h.increasing hplain).imp hne)
      ((h'.increasing hplain).imp hne)).mpr fun ⟨text, d⟩ => ?_
    rw [h.mem_iff, h'.mem_iff]
  refine hperm.eq_of_pairwise (fun a b _ _ hab hba => ?_) (h.increasing hplain)
    (h'.increasing hplain)
  exact absurd hba (List.lt_asymm hab)

theorem Allows.unique {request : Request} {answer answer' : Answer} (hplain : m.Plain)
    (h : m.Allows request answer) (h' : m.Allows request answer') : answer = answer' := by
  cases h with
  | removeEverywhere distinct mem_iff =>
    cases h' with
    | removeEverywhere distinct' mem_iff' =>
      have hperm := (List.perm_ext_iff_of_nodup distinct distinct').mpr fun path =>
        (mem_iff path).trans (mem_iff' path).symm
      rw [hperm.length_eq]
  | entries lists =>
    cases h' with
    | entries lists' => rw [lists.unique hplain lists']
  | _ =>
    cases h'
    rfl

/-- If no name has a dot, requests have one list of answers. -/
theorem Accepts.unique {requests : List Request} {answers answers' : List Answer}
    (hm : m.Undotted) (hplain : ∀ request ∈ requests, request.Plain)
    (h : m.Accepts requests answers) (h' : m.Accepts requests answers') : answers = answers' := by
  induction h generalizing answers' with
  | nil =>
    cases h'
    rfl
  | cons first rest ih =>
    cases h' with
    | cons first' rest' =>
      obtain ⟨hfirst, hrest⟩ := List.forall_mem_cons.mp hplain
      rw [first.unique hm.plain first', ih (hm.next hfirst) hrest rest']

end Naming

end Assembler6502
