/-
Tables of names are names by scope path.

An arena of scopes and a finite map of scoped names look nothing alike, but no
list of requests tells them apart from names by scope path.  The names of the
open scopes and the symbol of a name at a path are all that an answer depends on.

* **`Arena.lawful`** — arenas that are trees obey the laws of a table of names;
* **`arena_refines_naming`** — whatever is asked, an arena answers as the names by
  scope path demand, and scopes do; if no name has a dot, nothing else would do.
-/
import Assembler6502.Proofs.Scope.Worklist
import Mathlib.Data.Set.Defs

namespace Assembler6502

namespace Arena

variable {t : Arena}

theorem length_path (t : Arena) : t.path.length = t.opened.length := List.length_map _

theorem IsTree.enter (h : t.IsTree) (hdeep : t.path.length < 15) (name : String) :
    ∃ t', t.enter? name = some t' ∧ view.Shows t' (name :: t.path) t.symbolAt := by
  have hopened : t.opened.length + 1 < levelLimit := by
    rw [← t.length_path]
    exact Nat.succ_lt_succ hdeep
  have hchain : t.chain.length < levelLimit := by
    rw [Arena.chain, List.length_append]
    exact hopened
  cases hchild : t.child? t.current name with
  | some id =>
    refine ⟨{ t with opened := id :: t.opened }, ?_, h.open hchild hopened, ?_, fun _ _ => ?_⟩
    · rw [enter?, if_pos hchain, hchild]
    · show t.nameOf id :: t.path = _
      rw [h.nameOf_child hchild]
    · show symbolAt _ _ _ = _
      rw [symbolAt_withOpened]
  | none =>
    refine ⟨t.addChild name, ?_, h.addChild hchild hopened, h.path_addChild name,
      h.symbolAt_addChild hchild⟩
    rw [enter?, if_pos hchain, hchild]

theorem enter?_eq_none (hdeep : ¬ t.path.length < 15) (name : String) : t.enter? name = none := by
  refine if_neg fun hchain => hdeep ?_
  rw [chain, List.length_append] at hchain
  rw [t.length_path]
  exact Nat.lt_of_succ_lt_succ hchain

theorem IsTree.leave (h : t.IsTree) {name : String} {outer : List String}
    (hpath : t.path = name :: outer) :
    ∃ t', t.leave? = some t' ∧ view.Shows t' outer t.symbolAt := by
  cases hopened : t.opened with
  | nil =>
    rw [path, hopened] at hpath
    cases hpath
  | cons id ids =>
    refine ⟨{ t with opened := ids }, by rw [leave?, hopened], h.close hopened, ?_, fun _ _ => ?_⟩
    · rw [path, hopened] at hpath
      exact (List.cons.inj hpath).2
    · show symbolAt _ _ _ = _
      rw [symbolAt_withOpened]

theorem leave?_eq_none (hpath : t.path = []) : t.leave? = none := by
  rw [leave?, List.map_eq_nil_iff.mp hpath]

/-- A change of one name in the open scope shows at the open path. -/
theorem IsTree.shows_modifySymbols (h : t.IsTree) {name : String} {symbol : Option Symbol}
    {f : FiniteMap String Symbol → FiniteMap String Symbol}
    (hf : ∀ symbols other, (f symbols).get? other =
      if other = name then symbol else symbols.get? other) :
    view.Shows (t.modifySymbols t.current f) t.path fun scope other =>
      if scope = t.path ∧ other = name then symbol else t.symbolAt scope other :=
  have hsame := t.sameShape_modifySymbols t.current
  ⟨h.sameShape hsame, hsame.path, h.symbolAt_modifySymbols hf⟩

theorem IsTree.shows_eraseEverywhere (h : t.IsTree) (name : String) :
    view.Shows (t.eraseEverywhere name) t.path fun scope other =>
      if other = name then none else t.symbolAt scope other :=
  have hsame := t.sameShape_eraseEverywhere name
  ⟨h.sameShape hsame, hsame.path, t.symbolAt_eraseEverywhere name⟩

/-- Arenas that are trees obey the laws of a table of names. -/
theorem lawful : view.Lawful nameTable where
  empty := ⟨isTree_empty, rfl, symbolAt_empty⟩
  insert h name symbol :=
    h.shows_modifySymbols fun symbols other => symbols.get?_insert name other symbol
  erase h name := h.shows_modifySymbols fun symbols other => symbols.get?_erase name other
  eraseEverywhere h name := h.shows_eraseEverywhere name
  enter h hdeep name := h.enter hdeep name
  enter_deep _ hdeep name := enter?_eq_none hdeep name
  leave h _ _ hpath := h.leave hpath
  leave_outermost _ hpath := leave?_eq_none hpath
  rewind {t} h := ⟨h.rewind, rfl, fun scope name =>
    congrFun (congrFun (t.symbolAt_withOpened []) scope) name⟩
  lookup h name := h.findSome?_chain _
  lookupLocal {t} h name := by
    show t.symbolIn t.current name = t.symbolAt t.path name
    rw [symbolAt, h.find?_path, Option.bind_some]
  resolve h name := by
    refine (h.findSome?_chain _).trans ?_
    simp only [view, symbolAt, Option.bind_assoc]
  count h name := h.exists_scopes name
  entries h := h.exists_definitions
  pathText _ := rfl
  depth {t} _ := t.length_path.symm

end Arena

/-- Whatever is asked of an arena of scopes, it answers as the names by scope path demand, and so do
scopes.  At most fifteen scopes are open.  If no name has a dot, there is no other answer. -/
theorem arena_refines_naming (requests : List Request) :
    Naming.empty.Accepts requests (Arena.nameTable.answers .empty requests) ∧
    Naming.empty.Accepts requests (Scopes.nameTable.answers .empty requests) ∧
    (Naming.empty.after requests).path.length ≤ 15 ∧
    ((∀ request ∈ requests, request.Plain) → ∀ answers,
      Naming.empty.Accepts requests answers ↔
        answers = Arena.nameTable.answers .empty requests) := by
  have harena := Arena.lawful.accepts_empty requests
  refine ⟨harena, Scopes.lawful.accepts_empty requests,
    Naming.length_path_after (Nat.zero_le _) requests, fun hplain answers => ⟨fun h => ?_, ?_⟩⟩
  · exact h.unique Naming.undotted_empty hplain harena
  · rintro rfl
    exact harena

/-- A name that is awaited in a scope and has a value further out, and a scope that is reopened. -/
def reopening : List Request :=
  [.insert "s" ⟨.label, some 0x400⟩, .enter "p", .insert "n" ⟨.label, some 0x1000⟩,
    .insert "s" ⟨.identifier, none⟩, .lookup "s", .resolve "s", .leave,
    .lookup "n", .enter "p", .lookupLocal "n", .path, .entries,
    .removeEverywhere "s", .entries]

/-- The answers to them. -/
def reopened : List Answer :=
  [.done, .accepted true, .done, .done, .symbol (some ⟨.identifier, none⟩),
    .definition (some ⟨.label, 0x400⟩), .accepted true, .symbol none, .accepted true,
    .symbol (some ⟨.label, some 0x1000⟩), .path "p",
    .entries [("p.n", ⟨.label, 0x1000⟩), ("s", ⟨.label, 0x400⟩)], .count 2,
    .entries [("p.n", ⟨.label, 0x1000⟩)]]

/-- Two names that are found in the order of the scopes, and are listed the other way round. -/
theorem Arena.entries_of_two {t : Arena} {a b : String × Definition}
    (h : (t.walk t.scopes.size [(0, "")]).flatMap t.values = [a, b]) (hlt : ¬ a.1 ≤ b.1) :
    t.entries = [b, a] := by
  simp [Arena.entries, h, List.mergeSort, List.MergeSort.Internal.splitInTwo, hlt]

theorem Arena.entries_of_one {t : Arena} {a : String × Definition}
    (h : (t.walk t.scopes.size [(0, "")]).flatMap t.values = [a]) : t.entries = [a] := by
  simp [Arena.entries, h]

theorem arena_refines_naming_reopening :
    (∀ request ∈ reopening, request.Plain) ∧
      {answers | Naming.empty.Accepts reopening answers} = {reopened} := by
  have hplain : ∀ request ∈ reopening, request.Plain := by
    simp [reopening, Request.Plain]
  have hanswers : Arena.nameTable.answers .empty reopening = reopened := by
    unfold reopening reopened
    simp only [NameTable.answers, NameTable.respond, List.cons.injEq, and_true, true_and]
    refine ⟨by decide +kernel, by decide +kernel, by decide +kernel, by decide +kernel,
      by decide +kernel, by decide +kernel, by decide +kernel, by decide +kernel, ?_,
      by decide +kernel, ?_⟩
    · exact congrArg Answer.entries (Arena.entries_of_two (by decide +kernel) (by decide +kernel))
    · exact congrArg Answer.entries (Arena.entries_of_one (by decide +kernel))
  refine ⟨hplain, Set.ext fun answers => ?_⟩
  rw [← hanswers]
  exact (arena_refines_naming reopening).2.2.2 hplain answers

end Assembler6502
