/-
Reading notes names and does nothing else to the scopes.

A name is looked up in all open scopes, but it is noted in the innermost one.  So
it has to be seen that a note never takes the place of a value: a value in the
open scope would have been found first.

* **`Scopes.Note`** — one change: a name of the open scope that was not bound
  there is noted, or a note of it becomes one of a label;
* **`Scopes.Notes`** — any number of them;
* **`Grammatical.notes`** — what a parser does to the scopes, whether it succeeds
  or fails;
* **`Scopes.Undisturbed`** — what two scopes have in common if only notes were
  made;
* **`Arena.insert_note`** — the same in an arena of scopes, none of which is added
  or taken away;
* **`parse_notes_only`** — all of this for statements and expressions.

Design notes.  Scopes are known by their paths, so scopes that hold nothing do not
show.  They do in an arena, and there the scopes stay as they are.
-/
import Assembler6502.Proofs.Expression.Names
import Assembler6502.Proofs.Scope.Refinement
import Assembler6502.Proofs.Token.Lookahead

namespace Assembler6502

open Assembler6502.Parser

/-! ### Notes -/

namespace Scopes

/-- A name of the open scope is noted, or a note of it becomes one of a label. -/
inductive Note (s : Scopes) : Scopes → Prop where
  | fresh {name : String} (kind : SymbolKind) (free : s.lookupLocal name = none) :
      Note s (s.insert name ⟨kind, none⟩)
  | promoted {name : String} (noted : s.lookupLocal name = some ⟨.identifier, none⟩) :
      Note s (s.insert name ⟨.label, none⟩)

/-- Names are noted one after the other. -/
abbrev Notes : Scopes → Scopes → Prop :=
  Relation.ReflTransGen Note

variable {s t : Scopes}

theorem notes_classify (s : Scopes) (w : Spelling) : s.Notes (s.classify w).2 := by
  rcases s.classify_cases w with hsame | ⟨hlookup, hclassify⟩
  · rw [hsame]
  · rw [hclassify]
    -- the name may be found in an outer scope, but it is noted in the open one
    rcases s.lookupLocal_eq_none_or w.text with hfree | hlocal
    · exact .single (.fresh _ hfree)
    · rcases hlookup with hnone | ⟨hcolon, hnoted⟩
      · exact .single (.fresh _ (hlocal.trans hnone))
      · rw [if_pos hcolon]
        exact .single (.promoted (hlocal.trans hnoted))

/-- A note is made where there is no value. -/
theorem Note.exists_insert (h : s.Note t) :
    ∃ name kind, s.definitionAt s.path name = none ∧ t = s.insert name ⟨kind, none⟩ := by
  have hvalue : ∀ {name symbol}, s.lookupLocal name = symbol →
      s.definitionAt s.path name = symbol.bind Symbol.definition? := fun hlocal =>
    congrArg (Option.bind · Symbol.definition?) hlocal
  cases h with
  | fresh kind free => exact ⟨_, kind, hvalue free, rfl⟩
  | promoted noted => exact ⟨_, .label, hvalue noted, rfl⟩

end Scopes

/-! ### Parsers -/

theorem Reading.kept_notes : Kept fun r s => r.scopes.Notes s.scopes :=
  kept_scopes (fun _ => .refl) (fun h1 h2 => h1.trans h2) Scopes.notes_classify

/-- All that a parser does to the scopes is to note names. -/
theorem Parser.Grammatical.notes {α : Type} {p : Parser α} (h : Grammatical p) (r : Reading) :
    r.scopes.Notes (p.after r).scopes :=
  h.follows Reading.kept_notes r

/-! ### What notes leave as it is -/

/-- What can become of a binding in the open scope. -/
inductive Symbol.Rebound : Option Symbol → Option Symbol → Prop where
  | same (binding : Option Symbol) : Rebound binding binding
  | fresh (kind : SymbolKind) : Rebound none (some ⟨kind, none⟩)
  | promoted : Rebound (some ⟨.identifier, none⟩) (some ⟨.label, none⟩)

theorem Symbol.Rebound.trans {a b c : Option Symbol} (h : Rebound a b) (h' : Rebound b c) :
    Rebound a c := by
  cases h with
  | same => exact h'
  | fresh kind =>
    cases h' with
    | same => exact .fresh kind
    | promoted => exact .fresh .label
  | promoted =>
    cases h' with
    | same => exact .promoted

/-- Bindings that are left out of a listing do not change it when they come or go. -/
theorem FiniteMap.filterMap_insert {κ α β : Type} [DecidableEq κ] (m : FiniteMap κ α) {k : κ} {v : α}
    {f : κ × α → Option β} (hv : f (k, v) = none) (hold : ∀ u, m.get? k = some u → f (k, u) = none) :
    (m.insert k v).pairs.filterMap f = m.pairs.filterMap f := by
  have hpairs : (m.insert k v).pairs = (k, v) :: m.pairs.filter fun e => e.1 ≠ k := rfl
  rw [hpairs, List.filterMap_cons_none hv, List.filterMap_filter]
  refine List.filterMap_congr fun e he => ?_
  by_cases hk : e.1 = k
  · subst hk
    simp [hold e.2 (mem_pairs_iff.mp he)]
  · simp [hk]

namespace Scopes

/-- The open scope is the same.  All bindings of other scopes are the same, and in the open scope
names may be noted or become labels that have no value.  So every value of every scope is the same,
and so is all that asks for values. -/
structure Undisturbed (s t : Scopes) : Prop where
  path : t.path = s.path
  elsewhere : ∀ scope, scope ≠ s.path → ∀ name, t.symbolAt scope name = s.symbolAt scope name
  here : ∀ name, Symbol.Rebound (s.symbolAt s.path name) (t.symbolAt s.path name)
  definitionAt : ∀ scope name, t.definitionAt scope name = s.definitionAt scope name
  resolve : ∀ name, t.resolve name = s.resolve name
  entries : t.entries = s.entries

namespace Undisturbed

variable {s t u : Scopes}

theorem refl (s : Scopes) : s.Undisturbed s :=
  ⟨rfl, fun _ _ _ => rfl, fun _ => .same _, fun _ _ => rfl, fun _ => rfl, rfl⟩

theorem trans (h : s.Undisturbed t) (h' : t.Undisturbed u) : s.Undisturbed u where
  path := h'.path.trans h.path
  elsewhere scope hscope name :=
    (h'.elsewhere scope (h.path ▸ hscope) name).trans (h.elsewhere scope hscope name)
  here name := (h.here name).trans (h.path ▸ h'.here name)
  definitionAt scope name := (h'.definitionAt scope name).trans (h.definitionAt scope name)
  resolve name := (h'.resolve name).trans (h.resolve name)
  entries := h'.entries.trans h.entries

end Undisturbed

variable {s t : Scopes}

/-- A note is in no listing. -/
theorem definitions_note {name : String} {kind : SymbolKind}
    (h : s.definitionAt s.path name = none) :
    (s.insert name ⟨kind, none⟩).definitions = s.definitions := by
  refine s.table.filterMap_insert rfl fun symbol hsymbol => ?_
  have hnone : symbol.definition? = none := by
    rwa [definitionAt, symbolAt, hsymbol, Option.bind_some] at h
  simp [hnone]

/-- The binding that a note takes the place of is none, or a note. -/
theorem Note.rebound (h : s.Note t) (name : String) :
    Symbol.Rebound (s.symbolAt s.path name) (t.symbolAt s.path name) := by
  cases h with
  | fresh kind free =>
    rw [symbolAt_insert]
    split
    · next heq =>
      rw [heq.2, ← lookupLocal, free]
      exact .fresh kind
    · exact .same _
  | promoted noted =>
    rw [symbolAt_insert]
    split
    · next heq =>
      rw [heq.2, ← lookupLocal, noted]
      exact .promoted
    · exact .same _

theorem Note.undisturbed (h : s.Note t) : s.Undisturbed t := by
  obtain ⟨name, kind, hnone, ht⟩ := h.exists_insert
  have hpath : t.path = s.path := by rw [ht]; rfl
  have hvalues : ∀ scope other, t.definitionAt scope other = s.definitionAt scope other := by
    intro scope other
    rw [ht, definitionAt_insert]
    split
    · next heq =>
      obtain ⟨rfl, rfl⟩ := heq
      exact hnone.symm
    · rfl
  refine ⟨hpath, ?_, h.rebound, hvalues, ?_, ?_⟩
  · intro scope hscope other
    rw [ht, symbolAt_insert, if_neg fun heq => hscope heq.1]
  · exact fun other => resolve_congr hpath fun scope => hvalues scope other
  · unfold entries
    rw [ht, definitions_note hnone]

/-- However many names are noted, nothing else changes. -/
theorem Notes.undisturbed (h : s.Notes t) : s.Undisturbed t := by
  induction h with
  | refl => exact .refl s
  | tail _ hnote ih => exact ih.trans hnote.undisturbed

end Scopes

/-! ### Notes in an arena -/

namespace Arena

variable {a b c : Arena} {s t : Scopes}

theorem SameShape.refl (a : Arena) : a.SameShape a :=
  ⟨rfl, rfl, fun _ _ => rfl, fun _ => rfl⟩

theorem SameShape.trans (h : a.SameShape b) (h' : b.SameShape c) : a.SameShape c where
  opened := h'.opened.trans h.opened
  size := h'.size.trans h.size
  child? id name := (h'.child? id name).trans (h.child? id name)
  nameOf id := (h'.nameOf id).trans (h.nameOf id)

/-- A worklist of the scopes depends on the scopes inside each of them alone. -/
theorem walk_congr (h : b.inside = a.inside) (steps : Nat) (pending : List (Nat × String)) :
    b.walk steps pending = a.walk steps pending := by
  induction steps generalizing pending with
  | zero => rfl
  | succ steps ih =>
    cases pending with
    | nil => rfl
    | cons item pending => rw [walk, walk, ih, h]

/-- A note is in no listing of an arena. -/
theorem entries_insert_note (a : Arena) {name : String} {kind : SymbolKind}
    (h : (a.lookupLocal name).bind Symbol.definition? = none) :
    (a.insert name ⟨kind, none⟩).entries = a.entries := by
  have hinside : (a.insert name ⟨kind, none⟩).inside = a.inside := by
    funext item
    unfold inside insert modifySymbols
    rw [Array.getElem?_modify]
    split
    · cases a.scopes[item.1]? <;> rfl
    · rfl
  -- a scope lists its values, and where the note is made there was none
  have hvalues : (a.insert name ⟨kind, none⟩).values = a.values := by
    funext item
    unfold values insert modifySymbols
    rw [Array.getElem?_modify]
    split
    · next hcurrent =>
      cases hscope : a.scopes[item.1]? with
      | none => rfl
      | some scope =>
        simp only [Option.map_some, Option.elim_some]
        refine scope.symbols.filterMap_insert rfl fun symbol hsymbol => ?_
        rw [lookupLocal, symbolIn, hcurrent, hscope, Option.bind_some, hsymbol,
          Option.bind_some] at h
        simp [h]
    · rfl
  have hsize : (a.insert name ⟨kind, none⟩).scopes.size = a.scopes.size :=
    (a.sameShape_modifySymbols a.current).size
  unfold entries
  rw [hvalues, hsize, walk_congr hinside]

/-- An arena that shows the same names can note what is noted, in the scopes that it has. -/
theorem insert_note (ha : view.Shows a s.path s.symbolAt) (h : s.Note t) :
    ∃ b, a.SameShape b ∧ view.Shows b t.path t.symbolAt ∧ b.entries = a.entries := by
  obtain ⟨name, kind, hnone, rfl⟩ := h.exists_insert
  obtain ⟨-, hpath, hsymbolAt⟩ := lawful.insert ha.valid name ⟨kind, none⟩
  have hlocal : a.lookupLocal name = s.symbolAt s.path name := by
    rw [← ha.symbolAt, ← ha.path]
    exact lawful.lookupLocal ha.valid name
  have hsame : a.SameShape (a.insert name ⟨kind, none⟩) := a.sameShape_modifySymbols a.current
  refine ⟨a.insert name ⟨kind, none⟩, hsame, ⟨ha.valid.sameShape hsame, hpath.trans ha.path, ?_⟩, ?_⟩
  · intro scope other
    rw [s.symbolAt_insert, ← ha.symbolAt, ← ha.path]
    exact hsymbolAt scope other
  · exact a.entries_insert_note (hlocal ▸ hnone)

/-- What an arena resolves a name to can be seen from the names that it shows. -/
theorem resolve_of_shows (ha : view.Shows a s.path s.symbolAt) (name : String) :
    a.resolve name = s.resolve name := by
  refine (lawful.resolve ha.valid name).trans ?_
  rw [ha.path]
  unfold Scopes.resolve
  congr
  funext scope
  rw [ha.symbolAt]

theorem insert_notes (ha : view.Shows a s.path s.symbolAt) (h : s.Notes t) :
    ∃ b, a.SameShape b ∧ view.Shows b t.path t.symbolAt ∧ b.entries = a.entries := by
  induction h with
  | refl => exact ⟨a, .refl a, ha, rfl⟩
  | tail _ hnote ih =>
    obtain ⟨b, hsame, hb, hentries⟩ := ih
    obtain ⟨c, hsame', hc, hentries'⟩ := insert_note hb hnote
    exact ⟨c, hsame.trans hsame', hc, hentries'.trans hentries⟩

end Arena

/-! ### Statements and expressions -/

/-- Reading a statement or an expression, in either pass and whether it succeeds or fails, keeps the
open scope and all values: all that it can do is to note names of the open scope and to turn notes of
it into labels without a value.  An arena that shows the scopes before shows them afterwards with the
same scopes in it, gives every name the value that it gave it, and lists the same entries. -/
theorem parse_notes_only (c : Context) (r : Reading) :
    ∀ t ∈ [((Statement.parse c).after r).scopes, ((Value.parse c).after r).scopes],
      r.scopes.Undisturbed t ∧
      ∀ a, Arena.view.Shows a r.scopes.path r.scopes.symbolAt →
        ∃ b, a.SameShape b ∧ Arena.view.Shows b t.path t.symbolAt ∧
          (∀ name, b.resolve name = a.resolve name) ∧ b.entries = a.entries := by
  intro t ht
  have hnotes : r.scopes.Notes t := by
    rcases List.mem_pair.mp ht with rfl | rfl
    · exact Statement.parse_grammatical.notes r
    · exact Value.parse_grammatical.notes r
  refine ⟨hnotes.undisturbed, fun a ha => ?_⟩
  obtain ⟨b, hsame, hb, hentries⟩ := Arena.insert_notes ha hnotes
  refine ⟨b, hsame, hb, fun name => ?_, hentries⟩
  rw [Arena.resolve_of_shows hb, Arena.resolve_of_shows ha]
  exact hnotes.undisturbed.resolve name

/-- An open scope in which a name is noted, inside one that has a value. -/
def awaiting : Scopes where
  path := ["p"]
  table := (FiniteMap.empty.insert ⟨[], "n"⟩ ⟨.identifier, some 5⟩).insert ⟨["p"], "m"⟩
    ⟨.identifier, none⟩
  bounded := Nat.le_of_ble_eq_true rfl

theorem exists_shows_awaiting : ∃ a, Arena.view.Shows a awaiting.path awaiting.symbolAt := by
  have hvalue := Arena.lawful.insert Arena.isTree_empty "n" ⟨.identifier, some 5⟩
  have hshallow : (Arena.view.path (Arena.nameTable.insert .empty "n" ⟨.identifier, some 5⟩)).length <
      15 := by decide
  obtain ⟨a, -, hopened⟩ := Arena.lawful.enter hvalue.valid hshallow "p"
  have hnoted := Arena.lawful.insert hopened.valid "m" ⟨.identifier, none⟩
  have hpath : Arena.view.path a = ["p"] := hopened.path
  refine ⟨_, hnoted.valid, hnoted.path.trans hpath, fun scope name => ?_⟩
  rw [hnoted.symbolAt, hpath, hopened.symbolAt, hvalue.symbolAt]
  have hempty : Arena.view.symbolAt .empty scope name = none := Arena.symbolAt_empty scope name
  have houtermost : Arena.view.path .empty = [] := rfl
  simp [awaiting, Scopes.symbolAt, hempty, houtermost]

/-- A note becomes one of a label, another name is noted, and a value further out stays in sight. -/
theorem parse_notes_only_awaiting :
    let r := Reading.start ⟨"main", none, Byte.ofChars " lda m:+k+n\n".toList⟩ awaiting
    let t := ((Statement.parse (.plain .first 0x1000)).after r).scopes
    t.symbolAt ["p"] "m" = some ⟨.label, none⟩ ∧ t.symbolAt ["p"] "k" = some ⟨.identifier, none⟩ ∧
    awaiting.Undisturbed t ∧
    ∃ a b, Arena.view.Shows a awaiting.path awaiting.symbolAt ∧ a.SameShape b ∧
      Arena.view.Shows b t.path t.symbolAt ∧ (∀ name, b.resolve name = a.resolve name) ∧
      b.entries = a.entries := by
  intro r t
  obtain ⟨hframe, harena⟩ := parse_notes_only (.plain .first 0x1000) r t List.mem_cons_self
  obtain ⟨a, ha⟩ := exists_shows_awaiting
  obtain ⟨b, hb⟩ := harena a ha
  exact ⟨by decide +kernel, by decide +kernel, hframe, a, b, ha, hb⟩

end Assembler6502
