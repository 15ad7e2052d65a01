/-
An arena of scopes is a tree.

Scopes refer to each other by index, so nothing but the way they are added keeps
them a tree: a new scope gets the next index and is put into one scope, under a
name that is not in use there.  So an index has one path, and what is changed in
a scope is changed at its path and nowhere else.

* **`Arena.IsTree`** — indices grow from a scope to those inside it, every scope but
  the outermost one is in one other, and the open scopes are one inside the other;
* **`IsTree.find?_inj`**, **`IsTree.exists_find?`** — paths are one to one with indices;
* **`IsTree.modifySymbols`**, **`IsTree.eraseEverywhere`**, **`IsTree.addChild`**, … — an arena
  stays a tree;
* **`symbolAt_modifySymbols`**, **`symbolAt_addChild`**, … — what becomes of the symbol of a
  name at a path.
-/
import Assembler6502.Proofs.Scope.View
import Assembler6502.Scope.Arena

namespace Assembler6502

namespace Arena

variable {t t' : Arena} {id child : Nat} {name other : String} {scope : List String}

/-- The scope of a path, the innermost name first. -/
def find? (t : Arena) : List String → Option Nat
  | [] => some 0
  | name :: outer => (t.find? outer).bind fun id => t.child? id name

/-- The symbol of a name in the scope of a path. -/
def symbolAt (t : Arena) (scope : List String) (name : String) : Option Symbol :=
  (t.find? scope).bind fun id => t.symbolIn id name

/-- The scopes are a tree, and the open ones lead from its root to one of its scopes. -/
structure IsTree (t : Arena) : Prop where
  nonempty : 0 < t.scopes.size
  lt_child : ∀ {id name child}, t.child? id name = some child → id < child
  child_lt : ∀ {id name child}, t.child? id name = some child → child < t.scopes.size
  nameOf_child : ∀ {id name child}, t.child? id name = some child → t.nameOf child = name
  parent : ∀ {id id' name name' child},
    t.child? id name = some child → t.child? id' name' = some child → id = id'
  exists_parent : ∀ {child}, child < t.scopes.size → child ≠ 0 →
    ∃ id name, t.child? id name = some child
  chain : (Scopes.enclosing t.path).map t.find? = t.chain.map some
  bounded : t.opened.length < levelLimit

/-- What an arena shows. -/
def view : View Arena where
  valid := IsTree
  path := path
  symbolAt := symbolAt

/-! ### Paths and indices -/

theorem find?_cons_eq_some : t.find? (name :: scope) = some child ↔
    ∃ id, t.find? scope = some id ∧ t.child? id name = some child :=
  Option.bind_eq_some_iff

theorem find?_congr (h : ∀ id name, t'.child? id name = t.child? id name) :
    t'.find? scope = t.find? scope := by
  induction scope with
  | nil => rfl
  | cons name outer ih =>
    rw [find?, find?, ih]
    congr
    funext id
    exact h id name

theorem IsTree.find?_lt (h : t.IsTree) (hfind : t.find? scope = some id) : id < t.scopes.size := by
  cases scope with
  | nil =>
    cases hfind
    exact h.nonempty
  | cons name outer =>
    obtain ⟨parent, -, hchild⟩ := find?_cons_eq_some.mp hfind
    exact h.child_lt hchild

/-- The root is inside no scope. -/
theorem IsTree.child?_ne_root (h : t.IsTree) : t.child? id name ≠ some 0 :=
  fun hchild => absurd (h.lt_child hchild) (Nat.not_lt_zero id)

/-- Different paths have different scopes. -/
theorem IsTree.find?_inj (h : t.IsTree) {scope' : List String} (hfind : t.find? scope = some id)
    (hfind' : t.find? scope' = some id) : scope = scope' := by
  induction scope generalizing scope' id with
  | nil =>
    cases hfind
    cases scope' with
    | nil => rfl
    | cons name' outer' =>
      obtain ⟨parent', -, hchild'⟩ := find?_cons_eq_some.mp hfind'
      exact absurd hchild' h.child?_ne_root
  | cons name outer ih =>
    obtain ⟨parent, hparent, hchild⟩ := find?_cons_eq_some.mp hfind
    cases scope' with
    | nil =>
      cases hfind'
      exact absurd hchild h.child?_ne_root
    | cons name' outer' =>
      obtain ⟨parent', hparent', hchild'⟩ := find?_cons_eq_some.mp hfind'
      cases h.parent hchild hchild'
      rw [ih hparent hparent', ← h.nameOf_child hchild, h.nameOf_child hchild']

/-- Every scope has a path. -/
theorem IsTree.exists_find? (h : t.IsTree) (hid : id < t.scopes.size) :
    ∃ scope, t.find? scope = some id := by
  induction id using Nat.strong_induction_on with
  | _ id ih =>
    by_cases hroot : id = 0
    · subst hroot
      exact ⟨[], rfl⟩
    · obtain ⟨parent, name, hchild⟩ := h.exists_parent hid hroot
      have hlt := h.lt_child hchild
      obtain ⟨outer, houter⟩ := ih parent hlt (hlt.trans hid)
      exact ⟨name :: outer, find?_cons_eq_some.mpr ⟨parent, houter, hchild⟩⟩

/-! ### The open scopes -/

theorem chain_eq (t : Arena) : ∃ outer, t.chain = t.current :: outer := by
  unfold chain current
  cases t.opened with
  | nil => exact ⟨[], rfl⟩
  | cons id outer => exact ⟨outer ++ [0], rfl⟩

theorem IsTree.find?_path (h : t.IsTree) : t.find? t.path = some t.current := by
  have hchain := h.chain
  obtain ⟨outer, houter⟩ := t.chain_eq
  rw [houter] at hchain
  cases hpath : t.path with
  | nil =>
    rw [hpath] at hchain
    exact (List.cons.inj hchain).1
  | cons name scope =>
    rw [hpath] at hchain
    exact (List.cons.inj hchain).1

theorem IsTree.current_lt (h : t.IsTree) : t.current < t.scopes.size :=
  h.find?_lt h.find?_path

/-- Going through the open scopes is going through the scopes around the open one. -/
theorem IsTree.findSome?_chain {α : Type} (h : t.IsTree) (f : Nat → Option α) :
    t.chain.findSome? f =
      (Scopes.enclosing t.path).findSome? fun scope => (t.find? scope).bind f := by
  have hchain : t.chain.findSome? f = (t.chain.map some).findSome? fun id => id.bind f := by
    rw [List.findSome?_map]
    rfl
  rw [hchain, ← h.chain, List.findSome?_map]
  rfl

/-! ### Changes of symbols -/

/-- Two arenas that have the same scopes, up to the symbols in them. -/
structure SameShape (t t' : Arena) : Prop where
  opened : t'.opened = t.opened
  size : t'.scopes.size = t.scopes.size
  child? : ∀ id name, t'.child? id name = t.child? id name
  nameOf : ∀ id, t'.nameOf id = t.nameOf id

theorem SameShape.path (h : t.SameShape t') : t'.path = t.path := by
  unfold Arena.path
  rw [h.opened]
  exact List.map_congr_left fun id _ => h.nameOf id

theorem IsTree.sameShape (h : t.IsTree) (hsame : t.SameShape t') : t'.IsTree where
  nonempty := hsame.size ▸ h.nonempty
  lt_child hchild := h.lt_child (hsame.child? _ _ ▸ hchild)
  child_lt hchild := hsame.size ▸ h.child_lt (hsame.child? _ _ ▸ hchild)
  nameOf_child hchild := (hsame.nameOf _).trans (h.nameOf_child (hsame.child? _ _ ▸ hchild))
  parent hchild hchild' := h.parent (hsame.child? _ _ ▸ hchild) (hsame.child? _ _ ▸ hchild')
  exists_parent hlt hroot := by
    obtain ⟨id, name, hchild⟩ := h.exists_parent (hsame.size ▸ hlt) hroot
    exact ⟨id, name, (hsame.child? id name).trans hchild⟩
  chain := by
    have hfind : t'.find? = t.find? := funext fun scope => find?_congr hsame.child?
    have hchain : t'.chain = t.chain := congrArg (· ++ [0]) hsame.opened
    rw [hsame.path, hfind, hchain]
    exact h.chain
  bounded := hsame.opened ▸ h.bounded

section Symbols

variable {f : FiniteMap String Symbol → FiniteMap String Symbol}

theorem sameShape_modifySymbols (t : Arena) (id : Nat) : t.SameShape (t.modifySymbols id f) where
  opened := rfl
  size := Array.size_modify
  child? id' name := by
    unfold child? modifySymbols
    rw [Array.getElem?_modify]
    split
    · cases t.scopes[id']? <;> rfl
    · rfl
  nameOf id' := by
    unfold nameOf modifySymbols
    rw [Array.getElem?_modify]
    split
    · cases t.scopes[id']? <;> rfl
    · rfl

theorem symbolIn_modifySymbols (id' : Nat) :
    (t.modifySymbols id f).symbolIn id' name =
      if id = id' then t.scopes[id']?.bind fun scope => (f scope.symbols).get? name
      else t.symbolIn id' name := by
  unfold symbolIn modifySymbols
  rw [Array.getElem?_modify]
  split
  · cases t.scopes[id']? <;> rfl
  · rfl

/-- A change of the symbol of one name in the open scope is one at the open path. -/
theorem IsTree.symbolAt_modifySymbols (h : t.IsTree) {symbol : Option Symbol}
    (hf : ∀ symbols other, (f symbols).get? other =
      if other = name then symbol else symbols.get? other) (scope : List String)
    (other : String) :
    (t.modifySymbols t.current f).symbolAt scope other =
      if scope = t.path ∧ other = name then symbol else t.symbolAt scope other := by
  unfold symbolAt
  rw [find?_congr (t.sameShape_modifySymbols t.current).child?]
  by_cases hscope : scope = t.path
  · rw [hscope, h.find?_path, Option.bind_some, Option.bind_some, symbolIn_modifySymbols,
      if_pos rfl, symbolIn, Array.getElem?_eq_getElem h.current_lt, Option.bind_some,
      Option.bind_some, hf]
    simp only [true_and]
  · -- The open scope has no other path.
    rw [if_neg fun h => hscope h.1]
    cases hfind : t.find? scope with
    | none => rfl
    | some id =>
      have hne : t.current ≠ id := by
        rintro rfl
        exact hscope (h.find?_inj hfind h.find?_path)
      rw [Option.bind_some, Option.bind_some, symbolIn_modifySymbols, if_neg hne]

theorem sameShape_eraseEverywhere (t : Arena) (name : String) :
    t.SameShape (t.eraseEverywhere name) where
  opened := rfl
  size := Array.size_map
  child? id other := by
    unfold child? eraseEverywhere
    rw [Array.getElem?_map]
    cases t.scopes[id]? <;> rfl
  nameOf id := by
    unfold nameOf eraseEverywhere
    rw [Array.getElem?_map]
    cases t.scopes[id]? <;> rfl

theorem symbolAt_eraseEverywhere (t : Arena) (name : String) (scope : List String)
    (other : String) :
    (t.eraseEverywhere name).symbolAt scope other =
      if other = name then none else t.symbolAt scope other := by
  unfold symbolAt
  rw [find?_congr (t.sameShape_eraseEverywhere name).child?]
  cases t.find? scope with
  | none => simp
  | some id =>
    simp only [Option.bind_some, symbolIn, eraseEverywhere, Array.getElem?_map]
    cases t.scopes[id]? <;> simp

end Symbols

/-! ### New scopes -/

theorem getElem?_addChild (t : Arena) (name : String) (id : Nat) :
    (t.addChild name).scopes[id]? =
      if id = t.scopes.size then some (.fresh name)
      else if t.current = id then t.scopes[id]?.map fun scope =>
        { scope with children := scope.children.insert name t.scopes.size }
      else t.scopes[id]? := by
  unfold addChild
  rw [Array.getElem?_push, Array.size_modify, Array.getElem?_modify]

theorem symbolIn_addChild (t : Arena) (name : String) (id : Nat) (other : String) :
    (t.addChild name).symbolIn id other = t.symbolIn id other := by
  unfold symbolIn
  rw [getElem?_addChild]
  split
  · next hid =>
    rw [hid, Array.getElem?_eq_none (Nat.le_refl _)]
    rfl
  · split
    · cases t.scopes[id]? <;> rfl
    · rfl

theorem nameOf_addChild (t : Arena) (name : String) (id : Nat) :
    (t.addChild name).nameOf id = if id = t.scopes.size then name else t.nameOf id := by
  unfold nameOf
  rw [getElem?_addChild]
  split
  · rfl
  · split
    · cases t.scopes[id]? <;> rfl
    · rfl

theorem IsTree.child?_addChild (h : t.IsTree) (name : String) (id : Nat) (other : String) :
    (t.addChild name).child? id other =
      if id = t.current ∧ other = name then some t.scopes.size else t.child? id other := by
  have hcurrent := h.current_lt
  unfold child?
  rw [getElem?_addChild]
  split
  · next hid =>
    rw [if_neg fun h => absurd (hid.symm.trans h.1) hcurrent.ne', hid,
      Array.getElem?_eq_none (Nat.le_refl _)]
    rfl
  · split
    · next hid =>
      subst hid
      rw [Array.getElem?_eq_getElem hcurrent]
      simp
    · next hid => rw [if_neg fun h => hid h.1.symm]

theorem IsTree.find?_inside (h : t.IsTree) (name : String) :
    t.find? (name :: t.path) = t.child? t.current name := by
  rw [find?, h.find?_path, Option.bind_some]

theorem child?_size (t : Arena) (name : String) : t.child? t.scopes.size name = none := by
  rw [child?, Array.getElem?_eq_none (Nat.le_refl _), Option.bind_none]

/-- A new scope is found at its path, and no other path leads elsewhere than before. -/
theorem IsTree.find?_addChild (h : t.IsTree) (hnew : t.child? t.current name = none)
    (scope : List String) :
    (t.addChild name).find? scope =
      if scope = name :: t.path then some t.scopes.size else t.find? scope := by
  induction scope with
  | nil => rfl
  | cons other outer ih =>
    rw [find?, ih]
    by_cases houter : outer = name :: t.path
    · -- There is nothing in a new scope, and there was nothing at its path.
      have hne : other :: outer ≠ name :: t.path := by
        intro heq
        exact List.cons_ne_self name t.path (houter.symm.trans (List.cons.inj heq).2)
      rw [if_pos houter, if_neg hne, Option.bind_some, h.child?_addChild,
        if_neg fun h' => h.current_lt.ne' h'.1, child?_size, find?, houter, h.find?_inside, hnew,
        Option.bind_none]
    · rw [if_neg houter, find?]
      cases hfind : t.find? outer with
      | none =>
        have hne : other :: outer ≠ name :: t.path := by
          intro heq
          rw [(List.cons.inj heq).2, h.find?_path] at hfind
          cases hfind
        rw [if_neg hne, Option.bind_none, Option.bind_none]
      | some id =>
        have hiff : id = t.current ∧ other = name ↔ other :: outer = name :: t.path := by
          rw [List.cons.injEq, and_comm]
          refine and_congr_right fun _ => ⟨?_, ?_⟩
          · rintro rfl
            exact h.find?_inj hfind h.find?_path
          · rintro rfl
            exact Option.some.inj (hfind.symm.trans h.find?_path)
        rw [Option.bind_some, Option.bind_some, h.child?_addChild]
        exact if_congr hiff rfl rfl

theorem IsTree.symbolAt_addChild (h : t.IsTree) (hnew : t.child? t.current name = none)
    (scope : List String) (other : String) :
    (t.addChild name).symbolAt scope other = t.symbolAt scope other := by
  unfold symbolAt
  rw [h.find?_addChild hnew]
  split
  · next hscope =>
    rw [hscope, h.find?_inside, hnew, Option.bind_none, Option.bind_some, symbolIn_addChild,
      symbolIn, Array.getElem?_eq_none (Nat.le_refl _), Option.bind_none]
  · simp only [symbolIn_addChild]

theorem IsTree.lt_of_mem_chain (h : t.IsTree) (hid : id ∈ t.chain) : id < t.scopes.size := by
  have hmem : some id ∈ (Scopes.enclosing t.path).map t.find? := by
    rw [h.chain]
    exact List.mem_map_of_mem hid
  obtain ⟨scope, -, hfind⟩ := List.mem_map.mp hmem
  exact h.find?_lt hfind

theorem IsTree.path_addChild (h : t.IsTree) (name : String) :
    (t.addChild name).path = name :: t.path := by
  show (t.addChild name).nameOf t.scopes.size :: t.opened.map (t.addChild name).nameOf = _
  rw [nameOf_addChild, if_pos rfl]
  congr 1
  refine List.map_congr_left fun id hid => ?_
  have hlt := h.lt_of_mem_chain (List.mem_append_left [0] hid)
  rw [nameOf_addChild, if_neg hlt.ne]

/-- The scopes around the open one are found as before. -/
theorem IsTree.map_find?_addChild (h : t.IsTree) (hnew : t.child? t.current name = none) :
    (Scopes.enclosing t.path).map (t.addChild name).find? = t.chain.map some := by
  rw [← h.chain]
  refine List.map_congr_left fun scope hscope => ?_
  have hne : scope ≠ name :: t.path := by
    rintro rfl
    rw [View.enclosing_eq_tails, List.mem_tails] at hscope
    exact Nat.not_succ_le_self _ hscope.length_le
  rw [h.find?_addChild hnew, if_neg hne]

theorem IsTree.addChild (h : t.IsTree) (hnew : t.child? t.current name = none)
    (hdeep : t.opened.length + 1 < levelLimit) : (t.addChild name).IsTree := by
  have hsize : (t.addChild name).scopes.size = t.scopes.size + 1 := by
    rw [Arena.addChild, Array.size_push, Array.size_modify]
  -- An edge of the larger arena is the new one or an old one.
  have hedge : ∀ {id other child}, (t.addChild name).child? id other = some child →
      (id = t.current ∧ other = name ∧ child = t.scopes.size) ∨ t.child? id other = some child := by
    intro id other child hchild
    rw [h.child?_addChild] at hchild
    split at hchild
    · next heq => exact .inl ⟨heq.1, heq.2, (Option.some.inj hchild).symm⟩
    · exact .inr hchild
  refine ⟨?_, ?_, ?_, ?_, ?_, ?_, ?_, hdeep⟩
  · rw [hsize]
    exact Nat.succ_pos _
  · intro id other child hchild
    rcases hedge hchild with ⟨rfl, -, rfl⟩ | hold
    · exact h.current_lt
    · exact h.lt_child hold
  · intro id other child hchild
    rw [hsize]
    rcases hedge hchild with ⟨-, -, rfl⟩ | hold
    · exact Nat.lt_succ_self _
    · exact Nat.lt_succ_of_lt (h.child_lt hold)
  · intro id other child hchild
    rw [nameOf_addChild]
    rcases hedge hchild with ⟨-, rfl, rfl⟩ | hold
    · exact if_pos rfl
    · rw [if_neg (h.child_lt hold).ne]
      exact h.nameOf_child hold
  · intro id id' other other' child hchild hchild'
    rcases hedge hchild with ⟨rfl, -, rfl⟩ | hold
    · rcases hedge hchild' with ⟨rfl, -, -⟩ | hold'
      · rfl
      · exact absurd (h.child_lt hold') (Nat.lt_irrefl _)
    · rcases hedge hchild' with ⟨-, -, rfl⟩ | hold'
      · exact absurd (h.child_lt hold) (Nat.lt_irrefl _)
      · exact h.parent hold hold'
  · intro child hlt hroot
    rw [hsize] at hlt
    rcases Nat.lt_succ_iff_lt_or_eq.mp hlt with hlt | rfl
    · obtain ⟨id, other, hold⟩ := h.exists_parent hlt hroot
      refine ⟨id, other, ?_⟩
      rw [h.child?_addChild, if_neg, hold]
      rintro ⟨rfl, rfl⟩
      rw [hnew] at hold
      cases hold
    · exact ⟨t.current, name, by rw [h.child?_addChild, if_pos ⟨rfl, rfl⟩]⟩
  · rw [h.path_addChild, Scopes.enclosing, List.map_cons, h.find?_addChild hnew, if_pos rfl,
      h.map_find?_addChild hnew]
    rfl

/-! ### Opening and closing -/

theorem find?_withOpened (t : Arena) (opened : List Nat) :
    ({ t with opened := opened } : Arena).find? = t.find? :=
  funext fun _ => find?_congr fun _ _ => rfl

theorem symbolAt_withOpened (t : Arena) (opened : List Nat) :
    ({ t with opened := opened } : Arena).symbolAt = t.symbolAt := by
  unfold symbolAt
  rw [find?_withOpened]
  rfl

/-- Other scopes can be open if they lead from the root to a scope. -/
theorem IsTree.withOpened (h : t.IsTree) {opened : List Nat}
    (hchain : (Scopes.enclosing (opened.map t.nameOf)).map t.find? = (opened ++ [0]).map some)
    (hbounded : opened.length < levelLimit) : ({ t with opened := opened } : Arena).IsTree where
  nonempty := h.nonempty
  lt_child := h.lt_child
  child_lt := h.child_lt
  nameOf_child := h.nameOf_child
  parent := h.parent
  exists_parent := h.exists_parent
  chain := by
    rw [find?_withOpened]
    exact hchain
  bounded := hbounded

/-- A scope inside the open one can be opened. -/
theorem IsTree.open (h : t.IsTree) (hchild : t.child? t.current name = some id)
    (hdeep : t.opened.length + 1 < levelLimit) :
    ({ t with opened := id :: t.opened } : Arena).IsTree := by
  refine h.withOpened ?_ hdeep
  rw [List.map_cons, h.nameOf_child hchild]
  show t.find? (name :: t.path) :: (Scopes.enclosing t.path).map t.find? =
    some id :: t.chain.map some
  rw [h.find?_inside, hchild, h.chain]

theorem IsTree.close (h : t.IsTree) {outer : List Nat} (hopened : t.opened = id :: outer) :
    ({ t with opened := outer } : Arena).IsTree := by
  have hchain := h.chain
  have hbounded := h.bounded
  rw [Arena.path, Arena.chain, hopened] at hchain
  rw [hopened] at hbounded
  exact h.withOpened (List.cons.inj hchain).2 (Nat.lt_of_succ_lt hbounded)

theorem IsTree.rewind (h : t.IsTree) : t.rewind.IsTree :=
  h.withOpened rfl (by decide)

theorem child?_empty_ne : empty.child? id name ≠ some child := by
  cases id <;> nofun

theorem symbolAt_empty (scope : List String) (name : String) :
    empty.symbolAt scope name = none := by
  unfold symbolAt
  cases empty.find? scope with
  | none => rfl
  | some id => cases id <;> rfl

theorem isTree_empty : empty.IsTree where
  nonempty := Nat.one_pos
  lt_child hchild := absurd hchild child?_empty_ne
  child_lt hchild := absurd hchild child?_empty_ne
  nameOf_child hchild := absurd hchild child?_empty_ne
  parent hchild := absurd hchild child?_empty_ne
  exists_parent hlt hroot := absurd (Nat.lt_one_iff.mp hlt) hroot
  chain := rfl
  bounded := by decide

/-! ### All paths -/

/-- Scopes have paths. -/
theorem IsTree.exists_paths (h : t.IsTree) {ids : List Nat}
    (hids : ∀ id ∈ ids, id < t.scopes.size) :
    ∃ scopes : List (List String), scopes.map t.find? = ids.map some := by
  induction ids with
  | nil => exact ⟨[], rfl⟩
  | cons id ids ih =>
    obtain ⟨hid, hids⟩ := List.forall_mem_cons.mp hids
    obtain ⟨scope, hscope⟩ := h.exists_find? hid
    obtain ⟨scopes, hscopes⟩ := ih hids
    exact ⟨scope :: scopes, by rw [List.map_cons, List.map_cons, hscope, hscopes]⟩

/-- The paths of all scopes, each once. -/
theorem IsTree.exists_all_paths (h : t.IsTree) : ∃ scopes : List (List String), scopes.Nodup ∧
    (∀ scope, scope ∈ scopes ↔ (t.find? scope).isSome) ∧
      scopes.map t.find? = (List.range t.scopes.size).map some := by
  obtain ⟨scopes, hscopes⟩ : ∃ scopes : List (List String),
      scopes.map t.find? = (List.range t.scopes.size).map some :=
    h.exists_paths fun id hid => List.mem_range.mp hid
  refine ⟨scopes, ?_, fun scope => ⟨fun hmem => ?_, fun hsome => ?_⟩, hscopes⟩
  · refine List.Nodup.of_map t.find? ?_
    rw [hscopes]
    exact List.nodup_range.map fun _ _ => Option.some.inj
  · have hfind : t.find? scope ∈ (List.range t.scopes.size).map some := by
      rw [← hscopes]
      exact List.mem_map_of_mem hmem
    obtain ⟨id, -, hid⟩ := List.mem_map.mp hfind
    rw [← hid]
    rfl
  · obtain ⟨id, hid⟩ := Option.isSome_iff_exists.mp hsome
    have hmem : some id ∈ scopes.map t.find? := by
      rw [hscopes]
      exact List.mem_map_of_mem (List.mem_range.mpr (h.find?_lt hid))
    obtain ⟨scope', hscope', hid'⟩ := List.mem_map.mp hmem
    rw [h.find?_inj hid hid']
    exact hscope'

theorem count_eq_countP_range (t : Arena) (name : String) :
    t.count name = (List.range t.scopes.size).countP fun id => (t.symbolIn id name).isSome := by
  have hscopes : t.scopes.toList.map some =
      (List.range t.scopes.size).map fun id => t.scopes[id]? := by
    refine List.ext_getElem? fun id => ?_
    by_cases hid : id < t.scopes.size
    · simp [hid]
    · simp [hid]
  have hcount : ∀ scopes : List ScopeNode,
      scopes.countP (fun scope => (scope.symbols.get? name).isSome) =
        (scopes.map some).countP fun scope =>
          (scope.bind fun scope => scope.symbols.get? name).isSome := by
    intro scopes
    rw [List.countP_map]
    rfl
  rw [count, ← Array.countP_toList, hcount, hscopes, List.countP_map]
  rfl

/-- The scopes that bind a name are counted once each. -/
theorem IsTree.exists_scopes (h : t.IsTree) (name : String) :
    ∃ scopes : List (List String), scopes.Nodup ∧
      (∀ scope, scope ∈ scopes ↔ (t.symbolAt scope name).isSome) ∧
        t.count name = scopes.length := by
  obtain ⟨scopes, hnodup, hmem, hscopes⟩ := h.exists_all_paths
  refine ⟨scopes.filter fun scope => (t.symbolAt scope name).isSome, hnodup.filter _,
    fun scope => ?_, ?_⟩
  · rw [List.mem_filter, hmem]
    refine and_iff_right_of_imp fun hsome => ?_
    obtain ⟨symbol, hsymbol⟩ := Option.isSome_iff_exists.mp hsome
    obtain ⟨id, hid, -⟩ := Option.bind_eq_some_iff.mp hsymbol
    exact Option.isSome_iff_exists.mpr ⟨id, hid⟩
  · have hcount : (List.range t.scopes.size).countP (fun id => (t.symbolIn id name).isSome) =
        ((List.range t.scopes.size).map some).countP fun id =>
          (id.bind fun id => t.symbolIn id name).isSome := by
      rw [List.countP_map]
      rfl
    rw [count_eq_countP_range, hcount, ← hscopes, List.countP_map, List.countP_eq_length_filter]
    rfl

end Arena

end Assembler6502
