/-
What a name means in the second pass.

A name is looked up twice: its token gets the innermost binding, and if that has
no value, the factor asks for the innermost value.  Both together are one lookup
among the values, and names that are merely noted do not matter.

* **`Scopes.resolve_inside`** — a value is found from every scope inside, unless
  one between has a value too;
* **`Expr.factor_name`** — a name is the value that it resolves to;
* **`Scopes.mem_entries`** — a value is listed under its qualified name.
-/
import Assembler6502.Proofs.Statement.Values

namespace Assembler6502

namespace Scopes

variable {s t : Scopes} {name : String} {d : Definition}

theorem resolve_eq (s : Scopes) (name : String) :
    s.resolve name = (enclosing s.path).findSome? fun scope => s.definitionAt scope name :=
  rfl

/-- Resolving asks for the open scope and the values, and for nothing else. -/
theorem resolve_congr (hpath : t.path = s.path)
    (hvalues : ∀ scope, t.definitionAt scope name = s.definitionAt scope name) :
    t.resolve name = s.resolve name := by
  rw [resolve_eq, resolve_eq, hpath]
  congr 1
  exact funext hvalues

/-- A binding with a value that is found first is the value that is found first. -/
theorem resolve_of_lookup {kind : SymbolKind} {v : Int32}
    (h : s.lookup name = some ⟨kind, some v⟩) : s.resolve name = some ⟨kind, v⟩ := by
  obtain ⟨inner, scope, outer, hscopes, hsymbol, hnone⟩ := List.findSome?_eq_some_iff.mp h
  rw [resolve_eq, hscopes]
  refine List.findSome?_eq_some_iff.mpr ⟨inner, scope, outer, rfl, ?_, ?_⟩
  · rw [definitionAt, hsymbol]
    rfl
  · intro scope' hscope'
    rw [definitionAt, hnone scope' hscope']
    rfl

/-- A name is classified with a value only if it resolves to it. -/
theorem resolve_of_classify {w : Spelling} {v : Int32}
    (h : (s.classify w).1.symbol.value = some v) :
    s.resolve w.text = some ⟨(s.classify w).1.symbol.kind, v⟩ := by
  unfold classify at h ⊢
  split at h
  · next hlookup =>
    cases h
    exact resolve_of_lookup hlookup
  · cases h
  · cases h
  · next symbol _ hlookup =>
    obtain ⟨kind, value⟩ := symbol
    cases h
    exact resolve_of_lookup hlookup
  · cases h

/-- From inside a scope, its value of a name is found, unless a scope on the way has one. -/
theorem resolve_inside {inner scope : List String} (hpath : s.path = inner ++ scope)
    (hbetween : ∀ nearer, nearer ≠ [] → nearer <:+ inner →
      s.definitionAt (nearer ++ scope) name = none)
    (h : s.definitionAt scope name = some d) : s.resolve name = some d := by
  rw [resolve_eq, hpath]
  clear hpath
  induction inner with
  | nil =>
    cases scope with
    | nil =>
      show List.findSome? _ [[]] = some d
      rw [List.findSome?_cons, h]
    | cons first outer =>
      show List.findSome? _ ((first :: outer) :: enclosing outer) = some d
      rw [List.findSome?_cons, h]
  | cons first inner ih =>
    show List.findSome? _ ((first :: inner ++ scope) :: enclosing (inner ++ scope)) = some d
    rw [List.findSome?_cons, hbetween _ (List.cons_ne_nil _ _) (List.suffix_refl _)]
    refine ih fun nearer hne hsuffix => ?_
    exact hbetween nearer hne (hsuffix.trans (List.suffix_cons first inner))

/-- Every value is listed under the qualified name. -/
theorem mem_entries {scope : List String} (h : s.definitionAt scope name = some d) :
    (ScopedName.qualified ⟨scope, name⟩, d) ∈ s.entries := by
  obtain ⟨symbol, hsymbol, hd⟩ := Option.bind_eq_some_iff.mp h
  have hdefinition : ((⟨scope, name⟩ : ScopedName), d) ∈ s.definitions := by
    refine List.mem_filterMap.mpr ⟨(⟨scope, name⟩, symbol), ?_, ?_⟩
    · exact FiniteMap.mem_pairs_iff.mpr hsymbol
    · show symbol.definition?.map _ = _
      rw [hd]
      rfl
  refine List.mem_map.mpr ⟨(⟨scope, name⟩, d), ?_, rfl⟩
  exact List.mem_mergeSort.mpr hdefinition

end Scopes

namespace Expr

variable {c : Context} {r : Reading} {nested : Parser Expr}

theorem ofName_of_value {pass : Pass} {name : Name} {v : Int32}
    (h : name.symbol.value = some v) :
    ofName pass name r = .ok (.value v (name.symbol.kind = .label)) r := by
  unfold ofName
  rw [h]
  rfl

/-- In the second pass a name without a value is looked up among the values. -/
theorem ofName_of_resolve {name : Name} {d : Definition} (h : name.symbol.value = none)
    (hd : r.scopes.resolve name.text = some d) :
    ofName .second name r = .ok (.value d.value (d.kind = .label)) r := by
  unfold ofName
  rw [h]
  dsimp only [bind, EStateM.bind, Parser.scopes]
  rw [hd]
  rfl

/-- In the second pass a name without any value is an error. -/
theorem ofName_of_unresolved {name : Name} (h : r.scopes.resolve name.text = none)
    (hvalue : name.symbol.value = none) :
    ofName .second name r = .error (r.diagnostic (.undefinedName name.text)) r := by
  unfold ofName
  rw [hvalue]
  dsimp only [bind, EStateM.bind, Parser.scopes]
  rw [h]
  rfl

section

variable {w : Spelling} {p : Position} {cursor : Cursor}

theorem factor_eq_ofName (hnext : r.cursor.next = (.ok ⟨.name w, p⟩, cursor)) :
    factor c nested r = ofName c.pass (r.scopes.classify w).1
      { r with cursor, scopes := (r.scopes.classify w).2 } :=
  bind_of_ok (Parser.next_of_cursor hnext)

/-- The name that is read has been noted by then, which changes no value. -/
theorem resolve_noted (r : Reading) (w : Spelling) :
    (r.scopes.classify w).2.resolve (r.scopes.classify w).1.text = r.scopes.resolve w.text := by
  rw [Scopes.classify_text]
  exact Scopes.resolve_congr (Lexeme.bind_path r.scopes (.name w))
    fun scope => r.scopes.definitionAt_classify w scope w.text

/-- In the second pass a factor that is a name is the value that the name resolves to. -/
theorem factor_name (hpass : c.pass = .second)
    (hnext : r.cursor.next = (.ok ⟨.name w, p⟩, cursor)) {d : Definition}
    (hd : r.scopes.resolve w.text = some d) :
    factor c nested r = .ok (.value d.value (d.kind = .label))
      { r with cursor, scopes := (r.scopes.classify w).2 } := by
  rw [factor_eq_ofName hnext, hpass]
  cases hvalue : (r.scopes.classify w).1.symbol.value with
  | some v =>
    rw [Scopes.resolve_of_classify hvalue] at hd
    cases hd
    exact ofName_of_value hvalue
  | none => exact ofName_of_resolve hvalue ((resolve_noted r w).trans hd)

/-- In the second pass a factor that is a name has a value. -/
theorem resolve_of_factor (hpass : c.pass = .second)
    (hnext : r.cursor.next = (.ok ⟨.name w, p⟩, cursor)) {e : Expr} {r' : Reading}
    (h : factor c nested r = .ok e r') : ∃ d, r.scopes.resolve w.text = some d := by
  cases hd : r.scopes.resolve w.text with
  | some d => exact ⟨d, rfl⟩
  | none =>
    rw [factor_eq_ofName hnext, hpass] at h
    cases hvalue : (r.scopes.classify w).1.symbol.value with
    | some v =>
      rw [Scopes.resolve_of_classify hvalue] at hd
      cases hd
    | none =>
      rw [ofName_of_unresolved ((resolve_noted r w).trans hd) hvalue] at h
      cases h

end

end Expr

end Assembler6502
