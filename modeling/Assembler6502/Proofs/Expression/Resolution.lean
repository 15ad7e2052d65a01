/-
Which value a name has in an expression.

A name is noted when it is looked at, may be promoted to a label, is read against
the scopes as they are then, and is looked up once more if its token came without a
value.  What comes of it can be said by the scopes before the name was looked at:
it is the value of the innermost open scope that has one.

* **`Scopes.resolve_eq_some_iff`**, **`Scopes.resolve_eq_none_iff`** — which scopes
  are asked, and that those which are not open are not;
* **`Expr.factor_unresolved`** — a name without a value is an error;
* **`Expr.unaryFactor_looked`** — how often a name was looked at does not matter;
* **`Expr.fails_of_derives`** — a part of an expression fails at its first name
  without a value;
* **`Expr.names_resolved`** — names where a factor is due, and whole expressions.
-/
import Assembler6502.Proofs.Expression.Recognition
import Assembler6502.Proofs.Scope.View
import Assembler6502.Proofs.Token.Lookahead

namespace Assembler6502

open Assembler6502.Parser

/-! ### The scopes that are asked -/

namespace Scopes

variable {s : Scopes} {name : String} {d : Definition}

theorem mem_enclosing {path scope : List String} : scope ∈ enclosing path ↔ scope <:+ path := by
  rw [View.enclosing_eq_tails, List.mem_tails]

/-- A name has no value if none of the open scopes has one for it. -/
theorem resolve_eq_none_iff :
    s.resolve name = none ↔ ∀ scope, scope <:+ s.path → s.definitionAt scope name = none := by
  rw [resolve_eq, List.findSome?_eq_none_iff]
  simp only [mem_enclosing]

/-- The value that is found first has nothing but scopes without a value inside it. -/
theorem findSome?_enclosing_eq_some {path : List String}
    (h : (enclosing path).findSome? (fun scope => s.definitionAt scope name) = some d) :
    ∃ inner scope, path = inner ++ scope ∧ s.definitionAt scope name = some d ∧
      ∀ nearer, nearer ≠ [] → nearer <:+ inner → s.definitionAt (nearer ++ scope) name = none := by
  induction path with
  | nil =>
    refine ⟨[], [], rfl, by simpa [enclosing] using h, fun nearer hne hsuffix => ?_⟩
    exact absurd (List.suffix_nil.mp hsuffix) hne
  | cons first outer ih =>
    rw [enclosing, List.findSome?_cons] at h
    cases hfirst : s.definitionAt (first :: outer) name with
    | some d' =>
      rw [hfirst] at h
      cases h
      refine ⟨[], first :: outer, rfl, hfirst, fun nearer hne hsuffix => ?_⟩
      exact absurd (List.suffix_nil.mp hsuffix) hne
    | none =>
      rw [hfirst] at h
      obtain ⟨inner, scope, rfl, hd, hbetween⟩ := ih h
      refine ⟨first :: inner, scope, rfl, hd, fun nearer hne hsuffix => ?_⟩
      rcases List.suffix_cons_iff.mp hsuffix with rfl | hinner
      · exact hfirst
      · exact hbetween nearer hne hinner

/-- A name has the value of an open scope if no scope inside that one has a value for it.  Names
that are merely noted there are no obstacle. -/
theorem resolve_eq_some_iff :
    s.resolve name = some d ↔
      ∃ inner scope, s.path = inner ++ scope ∧ s.definitionAt scope name = some d ∧
        ∀ nearer, nearer ≠ [] → nearer <:+ inner →
          s.definitionAt (nearer ++ scope) name = none := by
  constructor
  · exact findSome?_enclosing_eq_some
  · rintro ⟨inner, scope, hpath, hd, hbetween⟩
    exact resolve_inside hpath hbetween hd

end Scopes

/-- A computation that fails in its first part fails. -/
theorem bind_of_error {ε σ α β : Type} {a : EStateM ε σ α} {f : α → EStateM ε σ β} {e : ε} {s t : σ}
    (h : a s = .error e t) : (a >>= f) s = .error e t := by
  show EStateM.bind a f s = _
  rw [EStateM.bind, h]

/-- What reads a token first depends on that token and what is left behind it. -/
theorem Parser.bind_next_congr {α : Type} {f : Token Name → Parser α} {r s : Reading}
    (h : next s = next r) : (next >>= f) s = (next >>= f) r := by
  show EStateM.bind next f s = EStateM.bind next f r
  rw [EStateM.bind, EStateM.bind, h]

namespace Expr

variable {c : Context} {r : Reading} {nested : Parser Expr}

/-! ### One name -/

section

variable {w : Spelling} {p : Position} {cursor : Cursor}

/-- In the second pass a factor that is a name without a value is an error. -/
theorem factor_unresolved (hpass : c.pass = .second)
    (hnext : r.cursor.next = (.ok ⟨.name w, p⟩, cursor)) (h : r.scopes.resolve w.text = none) :
    factor c nested r =
      .error (Reading.diagnostic { r with cursor, scopes := (r.scopes.classify w).2 }
        (.undefinedName w.text)) { r with cursor, scopes := (r.scopes.classify w).2 } := by
  have hvalue : (r.scopes.classify w).1.symbol.value = none := by
    cases hv : (r.scopes.classify w).1.symbol.value with
    | none => rfl
    | some v =>
      rw [Scopes.resolve_of_classify hv] at h
      cases h
  rw [factor_eq_ofName hnext, hpass, ofName_of_unresolved ((resolve_noted r w).trans h) hvalue,
    Scopes.classify_text]

/-- The parser looks at a name before it reads it, and may have looked at it before.  That makes no
difference. -/
theorem unaryFactor_looked (hnext : r.cursor.next = (.ok ⟨.name w, p⟩, cursor)) (k : Nat) :
    unaryFactor c nested (peek.after^[k] r) = factor c nested r := by
  have hnext' : (peek.after^[k] r).cursor.next = (.ok ⟨.name w, p⟩, cursor) := by
    rw [cursor_iterate_peek]
    exact hnext
  have hahead : peek.after (peek.after^[k] r) =
      { peek.after^[k] r with
        scopes := ((Lexeme.name w).bind (peek.after^[k] r).scopes).2 } := by
    rw [after_peek, after_of_ok (next_of_cursor hnext')]
  rw [unaryFactor_other hnext' (by simp), ← hahead, ← Function.iterate_succ_apply' peek.after k r]
  exact bind_next_congr (next_iterate_peek r (k + 1))

/-- The stack program of a name is its value, which makes it relocatable if the name is a label. -/
theorem program_value (d : Definition) :
    (Expr.value d.value (d.kind = .label)).program =
      ⟨[.operand d.value], if d.kind = .label then .relocatable else .absolute⟩ := by
  simp [program, items, mentionsAddress]

theorem program_value_inj {d d' : Definition}
    (h : (Expr.value d.value (d.kind = .label)).program =
      ⟨[.operand d'.value], if d'.kind = .label then .relocatable else .absolute⟩) : d = d' := by
  obtain ⟨kind, v⟩ := d
  obtain ⟨kind', v'⟩ := d'
  rw [program_value] at h
  cases kind <;> cases kind' <;> simp_all

end

end Expr

/-! ### The first name without a value -/

/-- The first name in a phrase that has no value. -/
def Phrase.unresolved? (σ : Scopes) (p : Phrase) : Option String :=
  p.names.find? fun name => (σ.resolve name).isNone

namespace Phrase

variable {σ τ : Scopes} {p q : Phrase}

/-- The left operand comes first. -/
theorem unresolved?_binary (op : BinaryOp) :
    (binary op p q).unresolved? σ = (p.unresolved? σ).or (q.unresolved? σ) :=
  List.find?_append

theorem unresolved?_eq_none_iff : p.unresolved? σ = none ↔ p.Defined σ := by
  simp [unresolved?, Defined, ← ne_eq, Option.ne_none_iff_exists']

theorem unresolved?_congr (h : ∀ name, τ.resolve name = σ.resolve name) :
    p.unresolved? τ = p.unresolved? σ := by
  simp only [unresolved?, h]

end Phrase

/-- What an operand stands in has its names first. -/
theorem Derives.names_of_more {rank : Rank} {ts : List (Lexeme Spelling)} {p q : Phrase}
    (h : Derives (.more rank p) ts q) : p.names <+: q.names := by
  generalize hpart : Part.more rank p = part at h
  induction h generalizing p with
  | stop =>
    cases hpart
    exact List.prefix_refl _
  | more ranked right rest ihright ihrest =>
    cases hpart
    exact (List.prefix_append _ _).trans (ihrest rfl)
  | _ => cases hpart

/-- So the first of them without a value is the first one there. -/
theorem Derives.unresolved?_of_more {rank : Rank} {ts : List (Lexeme Spelling)} {p q : Phrase}
    {σ : Scopes} {name : String} (h : Derives (.more rank p) ts q)
    (hname : p.unresolved? σ = some name) : q.unresolved? σ = some name := by
  obtain ⟨more, hmore⟩ := h.names_of_more
  rw [Phrase.unresolved?, ← hmore, List.find?_append, ← Phrase.unresolved?, hname]
  rfl

/-- The phrase to the left of a part has a value for each of its names. -/
def Part.Led (σ : Scopes) : Part → Prop
  | more _ left => left.Defined σ
  | operands _ | unary | factor => True

namespace Expr

variable {c : Context} {r : Reading} {d : Cursor}

/-- A part of an expression that stands at the cursor fails at its first name without a value, with
the names before it read. -/
theorem fails_of_derives (hpass : c.pass = .second) {part : Part} {ts : List (Lexeme Spelling)}
    {p : Phrase} (h : Derives part ts p) {n m : Nat} (hn : r.cursor.rest.length ≤ n)
    (hm : r.cursor.rest.length ≤ m) (htokens : r.cursor.Tokens ts d) (hends : part.Ends d)
    (hled : part.Led r.scopes) {name : String} (hname : p.unresolved? r.scopes = some name) :
    ∃ r', partParser c n m r.scopes part r = .error (r'.diagnostic (.undefinedName name)) r' := by
  -- by the derivation; a failure goes through to the whole, and what is read before it notes names
  -- but changes no value
  induction h generalizing r d n m with
  | constant | here => cases hname
  | name written =>
    obtain ⟨⟨l, position⟩, _, hnext, rfl, hrest⟩ := htokens.of_cons
    have hnone : r.scopes.resolve written.text = none ∧ written.text = name := by
      simpa [Phrase.unresolved?, Phrase.names, List.find?_singleton] using hname
    obtain ⟨hnone, rfl⟩ := hnone
    exact ⟨_, factor_unresolved hpass hnext hnone⟩
  | parens inside ih =>
    obtain ⟨⟨l, position⟩, c₁, hnext, rfl, hrest⟩ := htokens.of_cons
    obtain ⟨c₂, hinside, hclose⟩ := hrest.of_append
    obtain ⟨⟨l, position'⟩, _, hnext', rfl, -⟩ := hclose.of_cons
    have hlength := Cursor.length_lt_of_next hnext (by simp)
    obtain ⟨n, rfl⟩ : ∃ k, n = k + 1 := ⟨n - 1, by omega⟩
    obtain ⟨r', hr'⟩ := ih (r := { r with cursor := c₁ }) (n := n) (m := m)
      (by simp only; omega) (by simp only; omega) hinside ⟨_, _, hnext', by simp⟩ trivial hname
    exact ⟨r', (bind_of_ok (next_of_cursor hnext)).trans (bind_of_error hr')⟩
  | unary written operand ih =>
    obtain ⟨⟨l, position⟩, c₁, hnext, rfl, hrest⟩ := htokens.of_cons
    have hlength := Cursor.length_lt_of_next hnext (by simp)
    obtain ⟨r', hr'⟩ := ih (r := { r with cursor := c₁ }) (n := n) (m := m)
      (by simp only; omega) (by simp only; omega) hrest trivial trivial hname
    exact ⟨r', (unaryFactor_operator hnext written).trans (bind_of_error hr')⟩
  | factor only ih =>
    obtain ⟨l, more, rfl⟩ := only.exists_cons_of_factor
    obtain ⟨t, c₁, hnext, ht, -⟩ := htokens.of_cons
    have hsame := r.sameValues_bind t.lexeme r.cursor
    obtain ⟨r', hr'⟩ := ih (r := { r with scopes := (t.lexeme.bind r.scopes).2 }) hn hm htokens
      trivial trivial ((Phrase.unresolved?_congr hsame.resolve).trans hname)
    refine ⟨r', (unaryFactor_other hnext fun op sign hsign hl => ?_).trans hr'⟩
    exact only.head_of_factor hsign [] (by rw [← hl, ht]; rfl)
  | @operands rank ts us p q first rest ihfirst ihrest =>
    obtain ⟨c₁, hfirst, hrest⟩ := htokens.of_append
    have hends₁ := Rank.ends_operand rest hrest hends
    cases hp : p.unresolved? r.scopes with
    | some name' =>
      -- the first operand fails
      rw [rest.unresolved?_of_more hp] at hname
      cases hname
      have hled₁ : rank.operand.Led r.scopes := by cases rank <;> trivial
      obtain ⟨r', hr'⟩ := ihfirst hn hm hfirst hends₁ hled₁ hp
      rw [partParser_operand] at hr'
      exact ⟨r', bind_of_error hr'⟩
    | none =>
      -- the first operand is read, and the rest fails
      rw [Phrase.unresolved?_eq_none_iff] at hp
      have hlength := hfirst.length_le
      obtain ⟨r₁, hr₁, rfl⟩ := reads_of_derives hpass first hn hm hfirst hends₁ hp
      rw [partParser_operand] at hr₁
      have hsame := (operandParser_grammatical.follows Reading.kept_sameValues).of_ok hr₁
      obtain ⟨r', hr'⟩ := ihrest (Nat.le_trans hlength hn) (Nat.le_refl _) hrest hends
        ((Phrase.defined_congr p hsame.resolve).mpr hp)
        ((Phrase.unresolved?_congr hsame.resolve).trans hname)
      refine ⟨r', (bind_of_ok hr₁).trans ?_⟩
      rw [← Phrase.expr_congr c.address p hsame.resolve]
      exact hr'
  | stop =>
    rw [Phrase.unresolved?_eq_none_iff.mpr hled] at hname
    cases hname
  | @more rank op ts us p q s ranked right rest ihright ihrest =>
    obtain ⟨⟨l, position⟩, c₁, hnext, rfl, hrest⟩ := htokens.of_cons
    obtain ⟨c₂, hright, hmore⟩ := hrest.of_append
    have hlength := Cursor.length_lt_of_next hnext (by simp)
    have hlength₂ := hright.length_le
    have hends₁ := Rank.ends_operand rest hmore hends
    obtain ⟨m, rfl⟩ : ∃ k, m = k + 1 := ⟨m - 1, by omega⟩
    cases hq : q.unresolved? r.scopes with
    | some name' =>
      -- the operands so far have values, so the right one has the first name without
      have hbinary : (Phrase.binary op p q).unresolved? r.scopes = some name' := by
        rw [Phrase.unresolved?_binary, Phrase.unresolved?_eq_none_iff.mpr hled, hq]
        rfl
      rw [rest.unresolved?_of_more hbinary] at hname
      cases hname
      have hled₁ : rank.operand.Led r.scopes := by cases rank <;> trivial
      obtain ⟨r', hr'⟩ := ihright (r := { r with cursor := c₁ }) (n := n) (m := m)
        (by simp only; omega) (by simp only; omega) hright hends₁ hled₁ hq
      rw [partParser_operand] at hr'
      exact ⟨r', (chain_operator hnext ranked).trans (bind_of_error hr')⟩
    | none =>
      rw [Phrase.unresolved?_eq_none_iff] at hq
      obtain ⟨r₁, hr₁, rfl⟩ := reads_of_derives hpass right (r := { r with cursor := c₁ }) (n := n)
        (m := m) (by simp only; omega) (by simp only; omega) hright hends₁ hq
      rw [partParser_operand] at hr₁
      have hread := (operandParser_grammatical.follows Reading.kept_sameValues).of_ok hr₁
      have hsame : r.SameValues r₁ := ⟨hread.path, hread.definitionAt⟩
      have hpq : (Phrase.binary op p q).Defined r₁.scopes :=
        (Phrase.defined_congr _ hsame.resolve).mpr (Phrase.defined_binary.mpr ⟨hled, hq⟩)
      obtain ⟨r', hr'⟩ := ihrest (r := r₁) (n := n) (m := m) (by omega) (by omega) hmore hends hpq
        ((Phrase.unresolved?_congr hsame.resolve).trans hname)
      refine ⟨r', (chain_operator hnext ranked).trans ((bind_of_ok hr₁).trans ?_)⟩
      rw [← hr', partParser, Phrase.expr_congr c.address _ hsame.resolve]
      rfl

/-! ### Names and whole expressions -/

/-- In the second pass, whatever the scopes have noted, a name where a factor is due has the value
that it resolves to in the scopes before it was looked at, with a colon behind it or without: this
number is put on the stack, and it makes the expression relocatable if the name is that of a label.
Where it resolves to nothing, and only there, the name is reported as undefined.  So an expression
as a whole is read with these values, or its first name without one is reported.  A name resolves to
the value of the innermost open scope that has one; scopes that are not open are not asked, and names
that are merely noted hide no value further out. -/
theorem names_resolved (hpass : c.pass = .second) (r : Reading) :
    (∀ w p cursor nested, r.cursor.next = (.ok ⟨.name w, p⟩, cursor) →
      let r' : Reading := { r with cursor, scopes := (r.scopes.classify w).2 }
      (∀ d : Definition, r.scopes.resolve w.text = some d ↔
        ∃ e, factor c nested r = .ok e r' ∧
          e.program =
            ⟨[.operand d.value], if d.kind = .label then .relocatable else .absolute⟩) ∧
      (r.scopes.resolve w.text = none ↔
        factor c nested r = .error (r'.diagnostic (.undefinedName w.text)) r') ∧
      ∀ k, unaryFactor c nested (peek.after^[k] r) = factor c nested r) ∧
    (∀ ts p d, r.cursor.Sentence ts p d →
      (p.unresolved? r.scopes = none → ∃ e r', Expr.parse c r = .ok e r' ∧ r'.cursor = d ∧
        e.program = ⟨p.postorder r.scopes c.address,
          if p.mentionsAddress r.scopes then .relocatable else .absolute⟩) ∧
      ∀ name, p.unresolved? r.scopes = some name →
        ∃ r', Expr.parse c r = .error (r'.diagnostic (.undefinedName name)) r') ∧
    ∀ name,
      (r.scopes.resolve name = none ↔
        ∀ scope, scope <:+ r.scopes.path → r.scopes.definitionAt scope name = none) ∧
      ∀ d, r.scopes.resolve name = some d ↔
        ∃ inner scope, r.scopes.path = inner ++ scope ∧ r.scopes.definitionAt scope name = some d ∧
          ∀ nearer, nearer ≠ [] → nearer <:+ inner →
            r.scopes.definitionAt (nearer ++ scope) name = none := by
  refine ⟨?_, ?_, fun name => ⟨Scopes.resolve_eq_none_iff, fun d => Scopes.resolve_eq_some_iff⟩⟩
  · intro w p cursor nested hnext r'
    -- one of the two cases holds, so each of them is decided by what the factor comes to
    cases hresolve : r.scopes.resolve w.text with
    | some d =>
      have hfactor : factor c nested r = .ok (.value d.value (d.kind = .label)) r' :=
        factor_name hpass hnext hresolve
      refine ⟨fun d' => ⟨?_, ?_⟩, ⟨by simp, fun hfail => ?_⟩, unaryFactor_looked hnext⟩
      · rintro ⟨⟩
        exact ⟨_, hfactor, program_value d⟩
      · rintro ⟨e, he, hprogram⟩
        rw [hfactor] at he
        cases he
        rw [program_value_inj hprogram]
      · rw [hfactor] at hfail
        cases hfail
    | none =>
      have hfactor : factor c nested r = .error (r'.diagnostic (.undefinedName w.text)) r' :=
        factor_unresolved hpass hnext hresolve
      refine ⟨fun d' => ⟨by simp, ?_⟩, ⟨fun _ => hfactor, fun _ => rfl⟩, unaryFactor_looked hnext⟩
      rintro ⟨e, he, -⟩
      rw [hfactor] at he
      cases he
  · intro ts p d hsentence
    refine ⟨fun hnone => ?_, fun name hname => ?_⟩
    · obtain ⟨r', hparse, hd⟩ :=
        parse_complete hpass hsentence (Phrase.unresolved?_eq_none_iff.mp hnone)
      refine ⟨_, r', hparse, hd, ?_⟩
      rw [program, p.items_expr, p.mentionsAddress_expr]
    · exact fails_of_derives hpass hsentence.derives (Nat.le_refl _) (Nat.le_refl _)
        hsentence.tokens (Cursor.stops_sum_iff.mpr hsentence.stops) trivial hname

/-- Two open scopes that await a name, inside one that has it, and a scope that is not open. -/
def overshadowed : Scopes where
  path := ["q", "p"]
  table := (((FiniteMap.empty.insert ⟨[], "n"⟩ ⟨.label, some 0x400⟩).insert ⟨["p"], "n"⟩
    ⟨.label, none⟩).insert ⟨["q", "p"], "n"⟩ ⟨.identifier, none⟩).insert ⟨["z"], "m"⟩
    ⟨.identifier, some 7⟩
  bounded := by decide

/-- The label is seen through the notes, and the name of the other scope is not seen. -/
theorem names_resolved_overshadowed :
    let c := Context.plain .second 5
    let r := Reading.start ⟨"main", none, Byte.ofChars "n:+m".toList⟩ overshadowed
    (∃ e r', unaryFactor c (Expr.parse c) r = .ok e r' ∧
      e.program = ⟨[.operand 0x400], .relocatable⟩) ∧
    ∃ r', Expr.parse c r = .error (r'.diagnostic (.undefinedName "m")) r' := by
  intro c r
  obtain ⟨hfactor, hexpression, -⟩ := names_resolved (c := c) rfl r
  have hlexemes : r.cursor.firstLexemes 4 =
      [.name ⟨"n", true⟩, .operator .plus, .name ⟨"m", false⟩] ++ [.endOfInput] := by
    decide +kernel
  obtain ⟨_, htokens⟩ := r.cursor.exists_tokens 4
  rw [hlexemes] at htokens
  obtain ⟨d, hsum, hend⟩ := htokens.of_append
  constructor
  · obtain ⟨⟨_, position⟩, cursor, hnext, rfl, -⟩ := hsum.of_cons
    obtain ⟨hvalue, -, hlooked⟩ := hfactor _ _ _ (Expr.parse c) hnext
    obtain ⟨e, he, hprogram⟩ := (hvalue ⟨.label, 0x400⟩).mp (by decide +kernel)
    exact ⟨e, _, (hlooked 0).trans he, hprogram⟩
  · obtain ⟨t, _, hnext, ht, -⟩ := hend.of_cons
    have hterm : ∀ w, Derives (.operands .product) ([.name w] ++ []) (.name w) := fun w =>
      .operands (.factor (.name w)) .stop
    have hmore : Derives (.more .sum (.name ⟨"n", true⟩))
        (.operator BinaryOp.add.sign :: ([.name ⟨"m", false⟩] ++ []))
        (.binary .add (.name ⟨"n", true⟩) (.name ⟨"m", false⟩)) :=
      .more (by decide) (hterm _) .stop
    have hderives : Derives (.operands .sum)
        ([.name ⟨"n", true⟩] ++ [] ++ .operator BinaryOp.add.sign :: ([.name ⟨"m", false⟩] ++ []))
        (.binary .add (.name ⟨"n", true⟩) (.name ⟨"m", false⟩)) :=
      .operands (hterm ⟨"n", true⟩) hmore
    exact (hexpression _ _ d ⟨hsum, hderives, t, _, hnext, by simp [ht]⟩).2 "m" (by decide +kernel)

end Expr

end Assembler6502
