/-
The worklist of an arena.

A listing goes through all scopes with a worklist: a scope is taken off it, and
the scopes inside it are put on it.  A scope comes onto the list when the scope
around it is taken off, and only then.  So in a tree no scope comes onto it
twice, none is left out, and as many steps as there are scopes are enough.

* **`Arena.Progress`** — which scopes have been taken off the worklist and which are on it;
* **`IsTree.progress_step`** — one step keeps it;
* **`IsTree.walk_eq`** — the worklist goes through all scopes, each once;
* **`IsTree.covers_walk`** — so a listing has all values, each once.
-/
import Assembler6502.Proofs.Scope.Tree
import Mathlib.Data.List.Perm.Subperm

namespace Assembler6502

namespace Arena

variable {t : Arena} {id : Nat} {name : String} {scope : List String}
  {seen pending : List (List String)}

/-! ### Items -/

/-- The text before the names in the scope of a path. -/
def lead : List String → String
  | [] => ""
  | name :: outer => lead outer ++ name ++ "."

theorem lead_append (scope : List String) (name : String) :
    lead scope ++ name = ScopedName.qualified ⟨scope, name⟩ := by
  induction scope generalizing name with
  | nil => exact String.empty_append.trans String.intercalate_singleton.symm
  | cons outer scope ih =>
    have hne : (outer :: scope).reverse ≠ [] := List.reverse_ne_nil_iff.mpr (List.cons_ne_nil _ _)
    have happend := String.intercalate_append_of_ne_nil (s := ".") hne (List.cons_ne_nil name [])
    rw [String.intercalate_singleton, ← List.reverse_cons] at happend
    rw [lead, ih]
    exact happend.symm

/-- The item of the worklist for the scope of a path. -/
def item (t : Arena) (scope : List String) : Nat × String := ((t.find? scope).getD 0, lead scope)

theorem IsTree.exists_node (h : t.IsTree) (hfind : t.find? scope = some id) :
    ∃ node, t.scopes[id]? = some node ∧ t.item scope = (id, lead scope) := by
  refine ⟨_, Array.getElem?_eq_getElem (h.find?_lt hfind), ?_⟩
  rw [item, hfind, Option.getD_some]

/-- The items inside a scope are those of the paths that are longer by a name. -/
theorem IsTree.inside_item (h : t.IsTree) (hfind : (t.find? scope).isSome) :
    ∃ names : List String, names.Nodup ∧
      (∀ name, name ∈ names ↔ (t.find? (name :: scope)).isSome) ∧
        t.inside (t.item scope) = (names.map (· :: scope)).map t.item := by
  obtain ⟨id, hid⟩ := Option.isSome_iff_exists.mp hfind
  obtain ⟨node, hnode, hitem⟩ := h.exists_node hid
  have hchild : ∀ name, t.find? (name :: scope) = node.children.get? name := by
    intro name
    rw [find?, hid, Option.bind_some, child?, hnode, Option.bind_some]
  refine ⟨node.children.pairs.map Prod.fst, List.pairwise_map.mpr node.children.distinct, ?_, ?_⟩
  · intro name
    rw [hchild, Option.isSome_iff_exists, List.mem_map]
    constructor
    · rintro ⟨⟨name, child⟩, hmem, rfl⟩
      exact ⟨child, FiniteMap.mem_pairs_iff.mp hmem⟩
    · rintro ⟨child, hchild⟩
      exact ⟨(name, child), FiniteMap.mem_pairs_iff.mpr hchild, rfl⟩
  · rw [hitem, inside, hnode, Option.elim_some, List.map_map, List.map_map]
    refine List.map_congr_left ?_
    rintro ⟨name, child⟩ hmem
    show (child, lead scope ++ name ++ ".") = ((t.find? (name :: scope)).getD 0, _)
    rw [hchild, FiniteMap.mem_pairs_iff.mp hmem]
    rfl

/-! ### Steps -/

/-- The scopes that have been taken off the worklist and the scopes that are on it. -/
structure Progress (t : Arena) (seen pending : List (List String)) : Prop where
  distinct : (seen ++ pending).Nodup
  found : ∀ scope ∈ seen ++ pending, (t.find? scope).isSome
  root : [] ∈ seen ++ pending
  /-- A scope comes onto the worklist when the scope around it is taken off. -/
  outer : ∀ {name scope}, name :: scope ∈ seen ++ pending → scope ∈ seen
  inner : ∀ {name scope}, scope ∈ seen → (t.find? (name :: scope)).isSome →
    name :: scope ∈ seen ++ pending

theorem progress_start (t : Arena) : t.Progress [] [[]] where
  distinct := List.nodup_singleton _
  found scope hscope := by
    cases List.mem_singleton.mp hscope
    rfl
  root := List.mem_singleton_self _
  outer hmem := by cases List.mem_singleton.mp hmem
  inner hseen := absurd hseen List.not_mem_nil

theorem Progress.step (h : t.Progress seen (scope :: pending)) {names : List String}
    (hnames : names.Nodup) (hinside : ∀ name, name ∈ names ↔ (t.find? (name :: scope)).isSome) :
    t.Progress (seen ++ [scope]) (names.map (· :: scope) ++ pending) := by
  have hperm : (seen ++ [scope] ++ (names.map (· :: scope) ++ pending)).Perm
      (names.map (· :: scope) ++ (seen ++ scope :: pending)) := by
    have hold : seen ++ scope :: pending = seen ++ [scope] ++ pending := by simp
    rw [hold]
    exact List.perm_append_comm_assoc _ _ _
  have hmem : ∀ {other}, other ∈ seen ++ [scope] ++ (names.map (· :: scope) ++ pending) ↔
      (∃ name ∈ names, name :: scope = other) ∨ other ∈ seen ++ scope :: pending := by
    intro other
    rw [hperm.mem_iff, List.mem_append, List.mem_map]
  have hnot : scope ∉ seen := by
    intro hseen
    exact (List.nodup_append.mp h.distinct).2.2 scope hseen scope List.mem_cons_self rfl
  refine ⟨?_, ?_, ?_, ?_, ?_⟩
  · refine hperm.nodup_iff.mpr (List.nodup_append.mpr ⟨?_, h.distinct, ?_⟩)
    · exact hnames.map fun _ _ heq => (List.cons.inj heq).1
    · -- A scope inside this one is not on the list yet, as this one has not been taken off.
      rintro _ hnew other hold rfl
      obtain ⟨name, -, rfl⟩ := List.mem_map.mp hnew
      exact hnot (h.outer hold)
  · intro other hother
    rcases hmem.mp hother with ⟨name, hname, rfl⟩ | hold
    · exact (hinside name).mp hname
    · exact h.found other hold
  · exact hmem.mpr (.inr h.root)
  · intro name other hother
    rcases hmem.mp hother with ⟨_, -, heq⟩ | hold
    · cases heq
      exact List.mem_append_right _ (List.mem_singleton_self _)
    · exact List.mem_append_left _ (h.outer hold)
  · intro name other hseen hfound
    rcases List.mem_append.mp hseen with hseen | hself
    · exact hmem.mpr (.inr (h.inner hseen hfound))
    · cases List.mem_singleton.mp hself
      exact hmem.mpr (.inl ⟨name, (hinside name).mpr hfound, rfl⟩)

/-- When the worklist is empty, all scopes have been taken off it. -/
theorem Progress.complete (h : t.Progress seen []) (hfound : (t.find? scope).isSome) :
    scope ∈ seen := by
  have hall : ∀ {other}, other ∈ seen ++ [] → other ∈ seen := fun hmem => by
    rwa [List.append_nil] at hmem
  induction scope with
  | nil => exact hall h.root
  | cons name outer ih =>
    obtain ⟨child, hchild⟩ := Option.isSome_iff_exists.mp hfound
    obtain ⟨id, hid, -⟩ := find?_cons_eq_some.mp hchild
    exact hall (h.inner (ih (Option.isSome_iff_exists.mpr ⟨id, hid⟩)) hfound)

/-- No more scopes come onto the worklist than there are. -/
theorem IsTree.length_progress (h : t.IsTree) (hprogress : t.Progress seen pending) :
    seen.length + pending.length ≤ t.scopes.size := by
  obtain ⟨scopes, -, hmem, hscopes⟩ := h.exists_all_paths
  have hlength : scopes.length = t.scopes.size := by
    rw [← List.length_map t.find?, hscopes, List.length_map, List.length_range]
  have hsubset : seen ++ pending ⊆ scopes := fun scope hscope =>
    (hmem scope).mpr (hprogress.found scope hscope)
  have hle := (List.subperm_of_subset hprogress.distinct hsubset).length_le
  rwa [List.length_append, hlength] at hle

/-- The worklist goes through the scopes that have not been taken off it, each once. -/
theorem IsTree.walk_eq (h : t.IsTree) (steps : Nat) (hprogress : t.Progress seen pending)
    (hsteps : seen.length + steps = t.scopes.size) :
    ∃ order, t.walk steps (pending.map t.item) = order.map t.item ∧ (seen ++ order).Nodup ∧
      ∀ scope, scope ∈ seen ++ order ↔ (t.find? scope).isSome := by
  induction steps generalizing seen pending with
  | zero =>
    have hle := h.length_progress hprogress
    obtain rfl : pending = [] := List.length_eq_zero_iff.mp (by omega)
    exact ⟨[], rfl, hprogress.distinct, fun scope =>
      ⟨hprogress.found scope, fun hfound => List.mem_append_left _ (hprogress.complete hfound)⟩⟩
  | succ steps ih =>
    cases pending with
    | nil =>
      exact ⟨[], rfl, hprogress.distinct, fun scope =>
        ⟨hprogress.found scope, fun hfound => List.mem_append_left _ (hprogress.complete hfound)⟩⟩
    | cons scope pending =>
      have hfound := hprogress.found scope (List.mem_append_right _ List.mem_cons_self)
      obtain ⟨names, hnames, hmem, hinside⟩ := h.inside_item hfound
      have hlength : (seen ++ [scope]).length + steps = t.scopes.size := by
        rw [List.length_append, List.length_singleton]
        omega
      obtain ⟨order, hwalk, hnodup, hall⟩ := ih (hprogress.step hnames hmem) hlength
      refine ⟨scope :: order, ?_, ?_, ?_⟩
      · rw [List.map_cons, walk, hinside, ← List.map_append, hwalk, List.map_cons]
      · rwa [List.append_cons]
      · rwa [List.append_cons]

/-! ### Listings -/

/-- The names with a value in the scope of a path. -/
def definitionsAt (t : Arena) (scope : List String) : List (ScopedName × Definition) :=
  ((t.find? scope).bind fun id => t.scopes[id]?).elim [] fun node =>
    node.symbols.pairs.filterMap fun e =>
      e.2.definition?.map fun d => (⟨scope, e.1⟩, d)

theorem IsTree.exists_symbols (h : t.IsTree) (hfound : (t.find? scope).isSome) :
    ∃ symbols : FiniteMap String Symbol,
      (∀ name, t.symbolAt scope name = symbols.get? name) ∧
      t.definitionsAt scope = (symbols.pairs.filterMap fun e =>
        e.2.definition?.map fun d => (⟨scope, e.1⟩, d)) ∧
      t.values (t.item scope) = symbols.pairs.filterMap fun e =>
        e.2.definition?.map fun d => (lead scope ++ e.1, d) := by
  obtain ⟨id, hid⟩ := Option.isSome_iff_exists.mp hfound
  obtain ⟨node, hnode, hitem⟩ := h.exists_node hid
  refine ⟨node.symbols, fun name => ?_, ?_, ?_⟩
  · rw [symbolAt, hid, Option.bind_some, symbolIn, hnode, Option.bind_some]
  · rw [definitionsAt, hid, Option.bind_some, hnode, Option.elim_some]
  · rw [hitem, values, hnode, Option.elim_some]

theorem IsTree.values_item (h : t.IsTree) (hfound : (t.find? scope).isSome) :
    t.values (t.item scope) = (t.definitionsAt scope).map fun e => (e.1.qualified, e.2) := by
  obtain ⟨symbols, -, hdefinitions, hvalues⟩ := h.exists_symbols hfound
  rw [hvalues, hdefinitions, List.map_filterMap]
  simp only [lead_append, Option.map_map]
  rfl

theorem IsTree.mem_definitionsAt (h : t.IsTree) (hfound : (t.find? scope).isSome) {n : ScopedName}
    {d : Definition} : (n, d) ∈ t.definitionsAt scope ↔
      n.scope = scope ∧ (t.symbolAt scope n.name).bind Symbol.definition? = some d := by
  obtain ⟨symbols, hsymbols, hdefinitions, -⟩ := h.exists_symbols hfound
  rw [hdefinitions, hsymbols]
  refine (symbols.mem_definitions fun name => (⟨scope, name⟩ : ScopedName)).trans ?_
  constructor
  · rintro ⟨name, rfl, hd⟩
    exact ⟨rfl, hd⟩
  · rintro ⟨rfl, hd⟩
    exact ⟨n.name, rfl, hd⟩

theorem IsTree.pairwise_definitionsAt (h : t.IsTree) (hfound : (t.find? scope).isSome) :
    (t.definitionsAt scope).Pairwise (·.1 ≠ ·.1) := by
  obtain ⟨symbols, -, hdefinitions, -⟩ := h.exists_symbols hfound
  rw [hdefinitions]
  exact symbols.pairwise_definitions fun _ _ heq => congrArg ScopedName.name heq

/-- The values of all scopes are all values. -/
theorem IsTree.covers (h : t.IsTree) {order : List (List String)} (hnodup : order.Nodup)
    (hall : ∀ scope, scope ∈ order ↔ (t.find? scope).isSome) :
    view.Covers t (order.flatMap t.definitionsAt) := by
  refine ⟨List.pairwise_flatMap.mpr ⟨fun scope hscope => ?_, ?_⟩, fun n d => ?_⟩
  · exact h.pairwise_definitionsAt ((hall scope).mp hscope)
  · refine hnodup.imp_of_mem ?_
    rintro scope scope' hscope hscope' hne ⟨n, d⟩ hn ⟨n', d'⟩ hn' rfl
    obtain ⟨hn, -⟩ := (h.mem_definitionsAt ((hall scope).mp hscope)).mp hn
    obtain ⟨hn', -⟩ := (h.mem_definitionsAt ((hall scope').mp hscope')).mp hn'
    exact hne (hn.symm.trans hn')
  · rw [List.mem_flatMap]
    constructor
    · rintro ⟨scope, hscope, hmem⟩
      obtain ⟨rfl, hd⟩ := (h.mem_definitionsAt ((hall scope).mp hscope)).mp hmem
      exact hd
    · intro hd
      have hfound : (t.find? n.scope).isSome := by
        obtain ⟨symbol, hsymbol, -⟩ := Option.bind_eq_some_iff.mp hd
        obtain ⟨id, hid, -⟩ := Option.bind_eq_some_iff.mp hsymbol
        exact Option.isSome_iff_exists.mpr ⟨id, hid⟩
      exact ⟨n.scope, (hall n.scope).mpr hfound, (h.mem_definitionsAt hfound).mpr ⟨rfl, hd⟩⟩

/-- The entries of an arena are all its values, each once and sorted. -/
theorem IsTree.exists_definitions (h : t.IsTree) : ∃ definitions, view.Covers t definitions ∧
    t.entries.Perm (definitions.map fun e => (e.1.qualified, e.2)) ∧
      t.entries.Pairwise (·.1 ≤ ·.1) := by
  obtain ⟨order, hwalk, hnodup, hall⟩ :=
    h.walk_eq t.scopes.size t.progress_start (Nat.zero_add _)
  have hvalues : (t.walk t.scopes.size [(0, "")]).flatMap t.values =
      (order.flatMap t.definitionsAt).map fun e => (e.1.qualified, e.2) := by
    have hstart : t.walk t.scopes.size [(0, "")] = order.map t.item := hwalk
    rw [hstart, List.flatMap_map, List.map_flatMap]
    refine List.flatMap_congr fun scope hscope => ?_
    exact h.values_item ((hall scope).mp hscope)
  refine ⟨order.flatMap t.definitionsAt, h.covers hnodup hall, ?_, ?_⟩
  · rw [← hvalues]
    exact List.mergeSort_perm _ _
  · refine (List.pairwise_mergeSort ?_ ?_ _).imp of_decide_eq_true
    · intro a b c hab hbc
      exact decide_eq_true (le_trans (of_decide_eq_true hab) (of_decide_eq_true hbc))
    · intro a b
      rw [Bool.or_eq_true, decide_eq_true_iff, decide_eq_true_iff]
      exact le_total a.1 b.1

end Arena

end Assembler6502
