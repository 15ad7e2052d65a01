/-
Tables of names by what they show.

A table of names is read through a `View`: the open path and the symbol of each
name in each scope, with the paths from the inside out as the tables have them.
The laws of a table say of each operation what it shows afterwards or what it
finds.  A table with these laws answers as the names by scope path demand.

* **`View.Lawful`** — the laws of a table, an operation each;
* **`View.Lawful.respond`** — a lawful table gives one answer as it must;
* **`View.Lawful.accepts`** — so it does in the long run;
* **`Scopes.lawful`** — scopes are lawful.
-/
import Assembler6502.Proofs.Scope.Naming
import Mathlib.Data.List.Infix

namespace Assembler6502

/-- What a table shows. -/
structure View (σ : Type) where
  /-- The states that the table can come to. -/
  valid : σ → Prop
  /-- The names of the open scopes, the innermost first. -/
  path : σ → List String
  /-- The symbol of a name in a scope. -/
  symbolAt : σ → List String → String → Option Symbol

namespace View

variable {σ : Type} (view : View σ)

/-- The names that a table shows, with the paths from the outside in. -/
def naming (s : σ) : Naming where
  path := (view.path s).reverse
  symbol path name := view.symbolAt s path.reverse name

/-- A state with this open path and these bindings. -/
structure Shows (t : σ) (path : List String) (symbolAt : List String → String → Option Symbol) :
    Prop where
  valid : view.valid t
  path : view.path t = path
  symbolAt : ∀ scope name, view.symbolAt t scope name = symbolAt scope name

/-- A listing with all values of a table in it, each once. -/
structure Covers (s : σ) (definitions : List (ScopedName × Definition)) : Prop where
  distinct : definitions.Pairwise (·.1 ≠ ·.1)
  mem_iff : ∀ n d, (n, d) ∈ definitions ↔
    (view.symbolAt s n.scope n.name).bind Symbol.definition? = some d

/-- The laws of a table of names. -/
structure Lawful (table : NameTable σ) : Prop where
  empty : view.Shows table.empty [] fun _ _ => none
  insert : ∀ {s}, view.valid s → ∀ name symbol,
    view.Shows (table.insert s name symbol) (view.path s) fun scope other =>
      if scope = view.path s ∧ other = name then some symbol else view.symbolAt s scope other
  erase : ∀ {s}, view.valid s → ∀ name,
    view.Shows (table.erase s name) (view.path s) fun scope other =>
      if scope = view.path s ∧ other = name then none else view.symbolAt s scope other
  eraseEverywhere : ∀ {s}, view.valid s → ∀ name,
    view.Shows (table.eraseEverywhere s name) (view.path s) fun scope other =>
      if other = name then none else view.symbolAt s scope other
  enter : ∀ {s}, view.valid s → (view.path s).length < 15 → ∀ name,
    ∃ t, table.enter? s name = some t ∧ view.Shows t (name :: view.path s) (view.symbolAt s)
  enter_deep : ∀ {s}, view.valid s → ¬ (view.path s).length < 15 → ∀ name,
    table.enter? s name = none
  leave : ∀ {s}, view.valid s → ∀ {name outer}, view.path s = name :: outer →
    ∃ t, table.leave? s = some t ∧ view.Shows t outer (view.symbolAt s)
  leave_outermost : ∀ {s}, view.valid s → view.path s = [] → table.leave? s = none
  rewind : ∀ {s}, view.valid s → view.Shows (table.rewind s) [] (view.symbolAt s)
  lookup : ∀ {s}, view.valid s → ∀ name, table.lookup s name =
    (Scopes.enclosing (view.path s)).findSome? fun scope => view.symbolAt s scope name
  lookupLocal : ∀ {s}, view.valid s → ∀ name,
    table.lookupLocal s name = view.symbolAt s (view.path s) name
  resolve : ∀ {s}, view.valid s → ∀ name, table.resolve s name =
    (Scopes.enclosing (view.path s)).findSome? fun scope =>
      (view.symbolAt s scope name).bind Symbol.definition?
  count : ∀ {s}, view.valid s → ∀ name, ∃ scopes : List (List String), scopes.Nodup ∧
    (∀ scope, scope ∈ scopes ↔ (view.symbolAt s scope name).isSome) ∧
      table.count s name = scopes.length
  entries : ∀ {s}, view.valid s → ∃ definitions, view.Covers s definitions ∧
    (table.entries s).Perm (definitions.map fun e => (e.1.qualified, e.2)) ∧
      (table.entries s).Pairwise (·.1 ≤ ·.1)
  pathText : ∀ {s}, view.valid s → table.pathText s = ".".intercalate (view.path s).reverse
  depth : ∀ {s}, view.valid s → table.depth s = (view.path s).length

variable {view} {table : NameTable σ} {s t : σ}

/-! ### From the inside out and from the outside in -/

theorem Shows.naming_eq {path : List String} {symbolAt : List String → String → Option Symbol}
    (h : view.Shows t path symbolAt) :
    view.naming t = ⟨path.reverse, fun path name => symbolAt path.reverse name⟩ := by
  unfold naming
  rw [h.path]
  congr
  funext path name
  exact h.symbolAt _ _

/-- A binding at the open path, whichever way paths are written. -/
theorem naming_set {name : String} {symbol : Option Symbol}
    (h : view.Shows t (view.path s) fun scope other =>
      if scope = view.path s ∧ other = name then symbol else view.symbolAt s scope other) :
    view.naming t = (view.naming s).set name symbol := by
  rw [h.naming_eq]
  unfold Naming.set
  congr
  funext path other
  exact if_congr (and_congr_left' List.reverse_eq_iff) rfl rfl

theorem enclosing_eq_tails (path : List String) : Scopes.enclosing path = path.tails := by
  induction path with
  | nil => rfl
  | cons name outer ih => rw [Scopes.enclosing, List.tails_cons, ih]

/-- The scopes around a scope are the beginnings of its path, the longest first. -/
theorem findSome?_enclosing {α : Type} (path : List String) (f : List String → Option α) :
    (Scopes.enclosing path).findSome? f =
      path.reverse.inits.reverse.findSome? fun scope => f scope.reverse := by
  rw [enclosing_eq_tails, List.inits_reverse, List.reverse_reverse, List.findSome?_map]
  congr
  funext scope
  simp

/-- A sorted list of the values is what a listing must be. -/
theorem Covers.lists {definitions : List (ScopedName × Definition)}
    {entries : List (String × Definition)} (h : view.Covers s definitions)
    (hperm : entries.Perm (definitions.map fun e => (e.1.qualified, e.2)))
    (hsorted : entries.Pairwise (·.1 ≤ ·.1)) : (view.naming s).Lists entries := by
  have hqualified : ∀ n : ScopedName, n.qualified = Naming.qualified n.scope.reverse n.name := by
    intro n
    rw [ScopedName.qualified, Naming.qualified, List.reverse_cons]
  refine ⟨fun text d => ?_, hsorted.imp fun hle => Text.le_iff_bytes_le.mp hle, fun hplain => ?_⟩
  · rw [hperm.mem_iff, List.mem_map]
    constructor
    · rintro ⟨⟨n, d'⟩, hmem, heq⟩
      obtain ⟨rfl, rfl⟩ := Prod.mk.inj heq
      refine ⟨n.scope.reverse, n.name, ?_, hqualified n⟩
      show (view.symbolAt s n.scope.reverse.reverse n.name).bind _ = _
      rw [List.reverse_reverse]
      exact (h.mem_iff n d').mp hmem
    · rintro ⟨path, name, hd, rfl⟩
      refine ⟨(⟨path.reverse, name⟩, d), (h.mem_iff _ d).mpr hd, ?_⟩
      show (ScopedName.qualified ⟨path.reverse, name⟩, d) = _
      rw [hqualified, List.reverse_reverse]
  · -- Names that are bound apart are written apart, so none is listed twice.
    have hwords : ∀ n d, (n, d) ∈ definitions →
        ∀ word ∈ n.scope.reverse ++ [n.name], '.' ∉ word.toList := by
      intro n d hmem
      refine hplain _ _ (Option.isSome_iff_exists.mpr ⟨d, ?_⟩)
      show (view.symbolAt s n.scope.reverse.reverse n.name).bind _ = _
      rw [List.reverse_reverse]
      exact (h.mem_iff n d).mp hmem
    have hdistinct : (definitions.map fun e => (e.1.qualified, e.2)).Pairwise (·.1 ≠ ·.1) := by
      refine List.pairwise_map.mpr (h.distinct.imp_of_mem ?_)
      rintro ⟨n, d⟩ ⟨n', d'⟩ hmem hmem' hne heq
      refine hne ?_
      rw [hqualified, hqualified] at heq
      obtain ⟨hscope, hname⟩ := Naming.qualified_inj (hwords n d hmem) (hwords n' d' hmem') heq
      obtain ⟨scope, name⟩ := n
      obtain ⟨scope', name'⟩ := n'
      cases List.reverse_injective hscope
      cases hname
      rfl
    have hdistinct : entries.Pairwise (·.1 ≠ ·.1) :=
      (hperm.pairwise_iff fun h => h.symm).mpr hdistinct
    refine (hsorted.and hdistinct).imp ?_
    rintro a b ⟨hle, hne⟩
    exact Text.lt_iff_bytes_lt.mp (lt_of_le_of_ne hle hne)

/-! ### Answers -/

theorem Lawful.lookupLocal_eq (h : view.Lawful table) (hs : view.valid s) (name : String) :
    table.lookupLocal s name = (view.naming s).symbol (view.naming s).path name := by
  rw [h.lookupLocal hs]
  show _ = view.symbolAt s (view.path s).reverse.reverse name
  rw [List.reverse_reverse]

/-- The answer to a request is the one that the names demand, and the table shows afterwards what
they become. -/
structure Obeys (view : View σ) (table : NameTable σ) (s : σ) (request : Request) : Prop where
  allows : (view.naming s).Allows request (table.respond s request).1
  valid : view.valid (table.respond s request).2
  next : view.naming (table.respond s request).2 = (view.naming s).next request

theorem Lawful.obeys_removeEverywhere (h : view.Lawful table) (hs : view.valid s)
    (name : String) : view.Obeys table s (.removeEverywhere name) := by
  have hshows := h.eraseEverywhere hs name
  refine ⟨?_, hshows.valid, hshows.naming_eq⟩
  obtain ⟨scopes, hnodup, hmem, hcount⟩ := h.count hs name
  have hpaths : ∀ path, path ∈ scopes.map List.reverse ↔
      ((view.naming s).symbol path name).isSome := by
    intro path
    rw [List.mem_map_of_involutive List.reverse_involutive]
    exact hmem _
  simp only [NameTable.respond, hcount]
  rw [← List.length_map List.reverse]
  exact .removeEverywhere (hnodup.map List.reverse_injective) hpaths

theorem Lawful.obeys_enter (h : view.Lawful table) (hs : view.valid s) (name : String) :
    view.Obeys table s (.enter name) := by
  have hlength : (view.naming s).path.length = (view.path s).length := List.length_reverse
  have hallows : (view.naming s).Allows (.enter name) _ := .enter
  by_cases hdeep : (view.path s).length < 15
  · obtain ⟨t, ht, hshows⟩ := h.enter hs hdeep name
    have hnext : view.naming t = (view.naming s).next (.enter name) := by
      rw [hshows.naming_eq, Naming.next, if_pos (hlength ▸ hdeep), List.reverse_cons]
      rfl
    rw [decide_eq_true (hlength ▸ hdeep)] at hallows
    refine ⟨?_, ?_, ?_⟩ <;> simp only [NameTable.respond, ht]
    · exact hallows
    · exact hshows.valid
    · exact hnext
  · have hnext : view.naming s = (view.naming s).next (.enter name) := by
      rw [Naming.next, if_neg (hlength ▸ hdeep)]
    rw [decide_eq_false (hlength ▸ hdeep)] at hallows
    refine ⟨?_, ?_, ?_⟩ <;> simp only [NameTable.respond, h.enter_deep hs hdeep]
    · exact hallows
    · exact hs
    · exact hnext

theorem Lawful.obeys_leave (h : view.Lawful table) (hs : view.valid s) :
    view.Obeys table s .leave := by
  have hallows : (view.naming s).Allows .leave _ := .leave
  cases hpath : view.path s with
  | nil =>
    have hnil : (view.naming s).path = [] := by rw [naming, hpath, List.reverse_nil]
    have hnext : view.naming s = (view.naming s).next .leave := by
      rw [Naming.next, hnil]
      show view.naming s = ⟨[], (view.naming s).symbol⟩
      rw [← hnil]
    rw [decide_eq_false (not_not_intro hnil)] at hallows
    refine ⟨?_, ?_, ?_⟩ <;> simp only [NameTable.respond, h.leave_outermost hs hpath]
    · exact hallows
    · exact hs
    · exact hnext
  | cons name outer =>
    obtain ⟨t, ht, hshows⟩ := h.leave hs hpath
    have hcons : (view.naming s).path = outer.reverse ++ [name] := by
      rw [naming, hpath, List.reverse_cons]
    have hnext : view.naming t = (view.naming s).next .leave := by
      rw [hshows.naming_eq, Naming.next, hcons, List.dropLast_concat]
      rfl
    have hne : (view.naming s).path ≠ [] := by simp [hcons]
    rw [decide_eq_true hne] at hallows
    refine ⟨?_, ?_, ?_⟩ <;> simp only [NameTable.respond, ht]
    · exact hallows
    · exact hshows.valid
    · exact hnext

/-- A lawful table answers as its names demand, and shows the names that they become. -/
theorem Lawful.respond (h : view.Lawful table) (hs : view.valid s) (request : Request) :
    view.Obeys table s request := by
  cases request with
  | insert name symbol =>
    have hshows := h.insert hs name symbol
    exact ⟨.insert, hshows.valid, naming_set hshows⟩
  | remove name =>
    have hshows := h.erase hs name
    refine ⟨?_, hshows.valid, naming_set hshows⟩
    simp only [NameTable.respond, h.lookupLocal_eq hs]
    exact .remove
  | removeEverywhere name => exact h.obeys_removeEverywhere hs name
  | enter name => exact h.obeys_enter hs name
  | leave => exact h.obeys_leave hs
  | rewind =>
    have hshows := h.rewind hs
    exact ⟨.rewind, hshows.valid, hshows.naming_eq⟩
  | clear => exact ⟨.clear, h.empty.valid, h.empty.naming_eq⟩
  | lookup name =>
    refine ⟨?_, hs, rfl⟩
    simp only [NameTable.respond, h.lookup hs, findSome?_enclosing]
    exact .lookup
  | lookupLocal name =>
    refine ⟨?_, hs, rfl⟩
    simp only [NameTable.respond, h.lookupLocal_eq hs]
    exact .lookupLocal
  | resolve name =>
    refine ⟨?_, hs, rfl⟩
    simp only [NameTable.respond, h.resolve hs, findSome?_enclosing]
    exact .resolve
  | entries =>
    obtain ⟨definitions, hcovers, hperm, hsorted⟩ := h.entries hs
    exact ⟨.entries (hcovers.lists hperm hsorted), hs, rfl⟩
  | path =>
    refine ⟨?_, hs, rfl⟩
    simp only [NameTable.respond, h.pathText hs]
    exact .path
  | depth =>
    refine ⟨?_, hs, rfl⟩
    simp only [NameTable.respond, h.depth hs]
    rw [← List.length_reverse]
    exact .depth

/-- A lawful table answers all requests as its names demand. -/
theorem Lawful.accepts (h : view.Lawful table) (hs : view.valid s) (requests : List Request) :
    (view.naming s).Accepts requests (table.answers s requests) := by
  induction requests generalizing s with
  | nil => exact .nil
  | cons request requests ih =>
    have hobeys := h.respond hs request
    have hrest := ih hobeys.valid
    rw [hobeys.next] at hrest
    exact .cons hobeys.allows hrest

theorem Lawful.accepts_empty (h : view.Lawful table) (requests : List Request) :
    Naming.empty.Accepts requests (table.answers table.empty requests) := by
  have hempty : view.naming table.empty = Naming.empty := h.empty.naming_eq
  rw [← hempty]
  exact h.accepts h.empty.valid requests

end View

/-! ### Symbols in finite maps -/

namespace FiniteMap

variable {κ κ' : Type} {f : κ → κ'}

/-- The values among the symbols of a map, under other keys. -/
theorem mem_definitions [DecidableEq κ] (m : FiniteMap κ Symbol) (f : κ → κ') {k : κ'}
    {d : Definition} :
    (k, d) ∈ m.pairs.filterMap (fun e => e.2.definition?.map fun d => (f e.1, d)) ↔
      ∃ key, f key = k ∧ (m.get? key).bind Symbol.definition? = some d := by
  rw [List.mem_filterMap]
  constructor
  · rintro ⟨⟨key, symbol⟩, hmem, heq⟩
    obtain ⟨d', hd, heq⟩ := Option.map_eq_some_iff.mp heq
    obtain ⟨rfl, rfl⟩ := Prod.mk.inj heq
    refine ⟨key, rfl, ?_⟩
    rw [mem_pairs_iff.mp hmem]
    exact hd
  · rintro ⟨key, rfl, hbind⟩
    obtain ⟨symbol, hsymbol, hd⟩ := Option.bind_eq_some_iff.mp hbind
    exact ⟨(key, symbol), mem_pairs_iff.mpr hsymbol, Option.map_eq_some_iff.mpr ⟨d, hd, rfl⟩⟩

theorem pairwise_definitions (m : FiniteMap κ Symbol) (hf : Function.Injective f) :
    (m.pairs.filterMap fun e => e.2.definition?.map fun d => (f e.1, d)).Pairwise
      (·.1 ≠ ·.1) := by
  refine List.pairwise_filterMap.mpr (m.distinct.imp ?_)
  intro e e' hne x hx x' hx'
  obtain ⟨d, -, rfl⟩ := Option.map_eq_some_iff.mp hx
  obtain ⟨d', -, rfl⟩ := Option.map_eq_some_iff.mp hx'
  exact fun h => hne (hf h)

end FiniteMap

/-! ### Scopes -/

namespace Scopes

def view : View Scopes where
  valid _ := True
  path := Scopes.path
  symbolAt := Scopes.symbolAt

theorem precedes_iff {a b : ScopedName} : a.precedes b = true ↔
    a.qualified < b.qualified ∨
      a.qualified = b.qualified ∧ a.scope.length ≤ b.scope.length := by
  unfold ScopedName.precedes
  split
  · next heq => simp [heq]
  · next hne => simp [hne, le_iff_lt_or_eq]

theorem precedes_trans (a b c : ScopedName) (hab : a.precedes b = true)
    (hbc : b.precedes c = true) : a.precedes c = true := by
  rw [precedes_iff] at *
  rcases hab with hab | ⟨hab, hlength⟩
  · rcases hbc with hbc | ⟨hbc, -⟩
    · exact .inl (hab.trans hbc)
    · exact .inl (hbc ▸ hab)
  · rcases hbc with hbc | ⟨hbc, hlength'⟩
    · exact .inl (hab ▸ hbc)
    · exact .inr ⟨hab.trans hbc, hlength.trans hlength'⟩

theorem precedes_total (a b : ScopedName) : (a.precedes b || b.precedes a) = true := by
  rw [Bool.or_eq_true, precedes_iff, precedes_iff]
  rcases lt_trichotomy a.qualified b.qualified with hlt | heq | hgt
  · exact .inl (.inl hlt)
  · exact (le_total a.scope.length b.scope.length).imp (fun h => .inr ⟨heq, h⟩)
      fun h => .inr ⟨heq.symm, h⟩
  · exact .inr (.inl hgt)

theorem pairwise_entries (s : Scopes) : s.entries.Pairwise (·.1 ≤ ·.1) := by
  refine List.pairwise_map.mpr ((List.pairwise_mergeSort (fun a b c => precedes_trans a.1 b.1 c.1)
    (fun a b => precedes_total a.1 b.1) s.definitions).imp ?_)
  intro a b hab
  exact (precedes_iff.mp hab).elim le_of_lt fun h => le_of_eq h.1

theorem perm_entries (s : Scopes) :
    s.entries.Perm (s.definitions.map fun e => (e.1.qualified, e.2)) :=
  (List.mergeSort_perm _ _).map _

theorem covers_definitions (s : Scopes) : view.Covers s s.definitions := by
  refine ⟨s.table.pairwise_definitions (fun _ _ h => h), fun n d => ?_⟩
  refine (s.table.mem_definitions id).trans ?_
  exact ⟨fun ⟨_, rfl, h⟩ => h, fun h => ⟨n, rfl, h⟩⟩

/-- A count is one of scopes that bind the name. -/
theorem exists_scopes (s : Scopes) (name : String) : ∃ scopes : List (List String), scopes.Nodup ∧
    (∀ scope, scope ∈ scopes ↔ (s.symbolAt scope name).isSome) ∧
      s.count name = scopes.length := by
  refine ⟨(s.table.pairs.filter fun e => e.1.name = name).map fun e => e.1.scope, ?_, ?_, ?_⟩
  · refine List.pairwise_map.mpr ((s.table.distinct.filter _).imp_of_mem ?_)
    rintro ⟨⟨scope, other⟩, symbol⟩ ⟨⟨scope', other'⟩, symbol'⟩ he he' hne rfl
    cases of_decide_eq_true (List.mem_filter.mp he).2
    cases of_decide_eq_true (List.mem_filter.mp he').2
    exact hne rfl
  · intro scope
    rw [List.mem_map, Option.isSome_iff_exists]
    constructor
    · rintro ⟨⟨⟨scope, other⟩, symbol⟩, he, rfl⟩
      obtain ⟨hmem, hname⟩ := List.mem_filter.mp he
      cases of_decide_eq_true hname
      exact ⟨symbol, FiniteMap.mem_pairs_iff.mp hmem⟩
    · rintro ⟨symbol, hsymbol⟩
      refine ⟨(⟨scope, name⟩, symbol), List.mem_filter.mpr ⟨?_, decide_eq_true rfl⟩, rfl⟩
      exact FiniteMap.mem_pairs_iff.mpr hsymbol
  · rw [List.length_map, count, List.countP_eq_length_filter]

/-- Scopes obey the laws of a table of names. -/
theorem lawful : view.Lawful nameTable where
  empty := ⟨trivial, rfl, fun _ _ => rfl⟩
  insert {s} _ name symbol := ⟨trivial, rfl, s.symbolAt_insert name symbol⟩
  erase {s} _ name := ⟨trivial, rfl, s.symbolAt_erase name⟩
  eraseEverywhere {s} _ name := ⟨trivial, rfl, s.symbolAt_eraseEverywhere name⟩
  enter {s} _ hdeep name := by
    have hdeep : s.path.length + 1 < levelLimit := Nat.succ_lt_succ hdeep
    exact ⟨⟨name :: s.path, s.table, hdeep⟩, dif_pos hdeep, trivial, rfl, fun _ _ => rfl⟩
  enter_deep {s} _ hdeep name := by
    have hdeep : ¬ s.path.length + 1 < levelLimit := fun h => hdeep (Nat.lt_of_succ_lt_succ h)
    exact dif_neg hdeep
  leave {s} _ name outer hpath := by
    obtain ⟨path, table, bounded⟩ := s
    obtain rfl : path = name :: outer := hpath
    exact ⟨⟨outer, table, Nat.lt_of_succ_lt bounded⟩, rfl, trivial, rfl, fun _ _ => rfl⟩
  leave_outermost {s} _ hpath := by
    obtain ⟨path, table, bounded⟩ := s
    obtain rfl : path = [] := hpath
    rfl
  rewind _ := ⟨trivial, rfl, fun _ _ => rfl⟩
  lookup _ name := rfl
  lookupLocal _ name := rfl
  resolve _ name := rfl
  count {s} _ name := s.exists_scopes name
  entries {s} _ := ⟨s.definitions, s.covers_definitions, s.perm_entries, s.pairwise_entries⟩
  pathText _ := rfl
  depth _ := rfl

end Scopes

end Assembler6502
