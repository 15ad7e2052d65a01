/-
Names with a value, and reading them.

Reading a statement notes the names that are new, but it gives none of them a
value and takes none away.

* **`Scopes.definitionAt`** — the value of a name in a scope;
* **`Statement.parse_sameValues`** — reading changes no value;
* **`Statement.parse_assign`** — a label is not read as the target of an
  assignment.

Design notes.  `definitionAt` does not see names without a value, so noting a
name is invisible to it.
-/
import Assembler6502.Proofs.Expression.Agreement
import Assembler6502.Proofs.Statement.Inversion

namespace Assembler6502

open Assembler6502.Parser

/-! ### Values in the scopes -/

namespace Scopes

/-- The value of a name in one scope, with its kind. -/
def definitionAt (s : Scopes) (scope : List String) (name : String) : Option Definition :=
  (s.symbolAt scope name).bind Symbol.definition?

variable {s t : Scopes} {scope : List String} {name other : String}

theorem definitionAt_insert (s : Scopes) (name : String) (symbol : Symbol) (scope : List String)
    (other : String) :
    (s.insert name symbol).definitionAt scope other =
      if scope = s.path ∧ other = name then symbol.definition? else s.definitionAt scope other := by
  unfold definitionAt
  rw [symbolAt_insert]
  split <;> rfl

theorem definitionAt_enter? (h : s.enter? name = some t) : t.definitionAt = s.definitionAt := by
  unfold definitionAt
  rw [symbolAt_enter? h]

theorem definitionAt_leave? (h : s.leave? = some t) : t.definitionAt = s.definitionAt := by
  unfold definitionAt
  rw [symbolAt_leave? h]

/-- Forgetting names removes their values and leaves the others. -/
theorem definitionAt_foldl_eraseEverywhere (names : List String) (s : Scopes)
    (scope : List String) (name : String) :
    (names.foldl eraseEverywhere s).definitionAt scope name =
      if name ∈ names then none else s.definitionAt scope name := by
  induction names generalizing s with
  | nil => rw [if_neg List.not_mem_nil, List.foldl_nil]
  | cons first rest ih =>
    have hfirst : (s.eraseEverywhere first).definitionAt scope name =
        if name = first then none else s.definitionAt scope name := by
      unfold definitionAt
      rw [symbolAt_eraseEverywhere]
      split <;> rfl
    rw [List.foldl_cons, ih, hfirst]
    by_cases hmem : name ∈ rest
    · rw [if_pos hmem, if_pos (List.mem_cons_of_mem _ hmem)]
    · simp [hmem]

/-! ### Noting a name -/

/-- The open scope is the first one that a name is looked up in. -/
theorem lookup_of_symbolAt {symbol : Symbol} (h : s.symbolAt s.path name = some symbol) :
    s.lookup name = some symbol := by
  have hcons : ∃ rest, enclosing s.path = s.path :: rest := by
    cases s.path with
    | nil => exact ⟨[], rfl⟩
    | cons first outer => exact ⟨enclosing outer, rfl⟩
  obtain ⟨rest, hrest⟩ := hcons
  unfold lookup
  rw [hrest, List.findSome?_cons, h]

theorem lookup_of_definitionAt {d : Definition} (h : s.definitionAt s.path name = some d) :
    s.lookup name = some ⟨d.kind, some d.value⟩ := by
  obtain ⟨⟨kind, value⟩, hsymbol, hd⟩ := Option.bind_eq_some_iff.mp h
  obtain ⟨v, rfl, rfl⟩ := Option.map_eq_some_iff.mp hd
  exact lookup_of_symbolAt hsymbol

theorem definitionAt_path_eq_none_iff :
    s.definitionAt s.path name = none ↔ ∀ kind v, s.lookupLocal name ≠ some ⟨kind, some v⟩ := by
  constructor
  · intro hnone kind v hlocal
    have hd : s.definitionAt s.path name = some ⟨kind, v⟩ := Option.bind_eq_some_iff.mpr
      ⟨_, hlocal, rfl⟩
    rw [hnone] at hd
    cases hd
  · intro hfree
    refine Option.bind_eq_none_iff.mpr fun ⟨kind, value⟩ hsymbol => ?_
    cases value with
    | none => rfl
    | some v => exact absurd hsymbol (hfree kind v)

/-- Noting a name without a value where it has none changes no value. -/
theorem definitionAt_note {kind : SymbolKind}
    (h : ∀ d : Definition, s.lookup name ≠ some ⟨d.kind, some d.value⟩) :
    (s.insert name ⟨kind, none⟩).definitionAt scope other = s.definitionAt scope other := by
  rw [definitionAt_insert]
  split
  · next heq =>
    obtain ⟨rfl, rfl⟩ := heq
    cases hd : s.definitionAt s.path other with
    | none => rfl
    | some d => exact absurd (lookup_of_definitionAt hd) (h d)
  · rfl

theorem definitionAt_classify (s : Scopes) (w : Spelling) (scope : List String) (name : String) :
    (s.classify w).2.definitionAt scope name = s.definitionAt scope name := by
  unfold classify
  split
  · rfl
  · rfl
  · next hlabel hvalue =>
    -- the name is unknown, or it is known without a value and not as a label
    refine definitionAt_note fun d hd => ?_
    obtain ⟨kind, value⟩ := d
    cases kind with
    | label => exact hlabel _ hd
    | identifier => exact hvalue _ hd
  · rfl
  · next hlookup =>
    refine definitionAt_note fun d hd => ?_
    rw [hlookup] at hd
    cases hd

/-- A label is known as one, with a colon or without. -/
theorem classify_of_label {v : Int32} {w : Spelling}
    (h : s.definitionAt s.path w.text = some ⟨.label, v⟩) :
    (s.classify w).1 = ⟨w.text, .label, some v⟩ := by
  have hlookup := lookup_of_definitionAt h
  unfold classify
  rw [hlookup]
  cases w.colon <;> rfl

end Scopes

/-! ### Reading -/

/-- The scope that is open and all values stay the same. -/
structure Reading.SameValues (r s : Reading) : Prop where
  path : s.scopes.path = r.scopes.path
  definitionAt : ∀ scope name, s.scopes.definitionAt scope name = r.scopes.definitionAt scope name

theorem Lexeme.bind_definitionAt (scopes : Scopes) (l : Lexeme Spelling) (scope : List String)
    (name : String) :
    (l.bind scopes).2.definitionAt scope name = scopes.definitionAt scope name := by
  cases l with
  | name w => exact scopes.definitionAt_classify w scope name
  | _ => rfl

theorem Parser.next_sameValues (r : Reading) : r.SameValues (Parser.next.after r) := by
  unfold Parser.after Parser.next
  cases hc : r.cursor.next with
  | mk result cursor =>
    cases result with
    | ok token => exact ⟨Lexeme.bind_path _ _, Lexeme.bind_definitionAt _ _⟩
    | error e => exact ⟨rfl, fun _ _ => rfl⟩

theorem Reading.kept_sameValues : Kept Reading.SameValues where
  refl _ := ⟨rfl, fun _ _ => rfl⟩
  trans h1 h2 := ⟨h2.path.trans h1.path, fun _ _ =>
    (h2.definitionAt _ _).trans (h1.definitionAt _ _)⟩
  next := Parser.next_sameValues
  peek r := by
    rw [Parser.after_peek]
    exact ⟨(Parser.next_sameValues r).path, (Parser.next_sameValues r).definitionAt⟩

theorem Parser.Follows.of_ok {α : Type} {R : Reading → Reading → Prop} {p : Parser α}
    (h : Follows R p) {r r' : Reading} {x : α} (hp : p r = .ok x r') : R r r' := by
  have hr := h r
  unfold Parser.after at hr
  rw [hp] at hr
  exact hr

namespace Statement

variable {c : Context} {r r' : Reading}

/-- Reading a statement changes no value. -/
theorem parse_sameValues {statement : Statement} (h : Statement.parse c r = .ok statement r') :
    r.SameValues r' :=
  (parse_grammatical.follows Reading.kept_sameValues).of_ok h

/-- The name that a statement begins with is classified by the scopes as they are. -/
theorem firstToken_name {token : Token Name} {name : Name} (h : firstToken r = .ok token r')
    (hname : token.lexeme = .name name) :
    ∃ r₁ w, r.SameValues r₁ ∧ name = (r₁.scopes.classify w).1 := by
  have hclassified : ∀ {r₁ r₂ : Reading} {t : Token Name}, next r₁ = .ok t r₂ →
      t.lexeme = .name name → ∃ w, name = (r₁.scopes.classify w).1 := by
    intro r₁ r₂ t hnext ht
    obtain ⟨token, -, rfl, -⟩ := next_eq_ok hnext
    cases hl : token.lexeme with
    | name w =>
      rw [hl] at ht
      cases ht
      exact ⟨w, rfl⟩
    | _ =>
      rw [hl] at ht
      cases ht
  obtain ⟨t, r₁, hnext, h⟩ := bind_eq_ok h
  split at h
  · obtain ⟨w, hw⟩ := hclassified h hname
    exact ⟨r₁, w, Follows.of_ok Parser.next_sameValues hnext, hw⟩
  · cases h
    obtain ⟨w, hw⟩ := hclassified hnext hname
    exact ⟨r, w, ⟨rfl, fun _ _ => rfl⟩, hw⟩

/-- A name that is a label in the open scope is not assigned to. -/
theorem parse_assign {text : String} {v : Int32} {relocatable : Bool}
    (h : Statement.parse c r = .ok (.assign text v relocatable) r') (address : Int32) :
    r.scopes.definitionAt r.scopes.path text ≠ some ⟨.label, address⟩ := by
  intro hlabel
  obtain ⟨token, r₁, hfirst, h⟩ := bind_eq_ok h
  have hbegins := parseFrom_begins h
  obtain ⟨lexeme, position⟩ := token
  cases hbegins with
  | assign hkind =>
    obtain ⟨r₂, w, hsame, rfl⟩ := firstToken_name hfirst rfl
    rw [Scopes.classify_text, ← hsame.definitionAt, ← hsame.path] at hlabel
    rw [Scopes.classify_of_label hlabel] at hkind
    exact hkind rfl

end Statement

end Assembler6502
