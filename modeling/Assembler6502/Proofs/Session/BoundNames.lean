/-
The names that get a value.

A name gets a value only by a statement that begins with it or opens a scope of
that name, and both have read it as a name.  So whatever has a value at the end
of a run has the text of a name, and has it in a scope in which a statement
stands.

* **`Statement.isNameText_of_parse`** — labels and targets of assignments have
  texts of names;
* **`Clean.path_eq_nil`** — if no scope is opened, all statements are in the
  outermost one;
* **`Passes.exists_binding`** — the statement of the first pass that a value at
  the end of a run goes back to;
* **`Passes.isNameText`**, **`Passes.outermost`** — what follows for the names.
-/
import Assembler6502.Proofs.Session.Phase
import Assembler6502.Proofs.Token.Names

namespace Assembler6502

open Assembler6502.Parser

namespace Statement

variable {c : Context} {r r' : Reading} {statement : Statement} {name : String}

theorem isNameText_of_next {token : Token Name} {n : Name} (h : next r = .ok token r')
    (hn : token.lexeme = .name n) : Byte.IsNameText n.text := by
  obtain ⟨⟨l, p⟩, hcursor, rfl, -⟩ := next_eq_ok h
  obtain ⟨w, rfl, rfl⟩ := Lexeme.eq_name_of_bind hn
  obtain ⟨word, behind, -, hname, htext⟩ := Cursor.isName_of_next hcursor
  rw [Scopes.classify_text, ← htext]
  exact hname.foldedText

/-- A statement that places a label or assigns to a name has read the name. -/
theorem isNameText_of_parse (h : parse c r = .ok statement r')
    (hname : statement.label? = some name ∨ statement.target? = some name) :
    Byte.IsNameText name := by
  obtain ⟨token, r₁, hfirst, h⟩ := bind_eq_ok h
  have hbegins := parseFrom_begins h
  obtain ⟨t, r₂, hnext, hfirst⟩ := bind_eq_ok hfirst
  -- the first token may stand behind a line end
  have hread : ∀ n, token.lexeme = .name n → Byte.IsNameText n.text := by
    intro n hn
    split at hfirst
    · exact isNameText_of_next hfirst hn
    · cases hfirst
      exact isNameText_of_next hnext hn
  obtain ⟨lexeme, position⟩ := token
  cases hbegins with
  | label =>
    rcases hname with hname | hname
    · cases hname
      exact hread _ rfl
    · cases hname
  | assign =>
    rcases hname with hname | hname
    · cases hname
    · cases hname
      exact hread _ rfl
  | openScope =>
    rcases hname with hname | hname
    · cases hname
      obtain ⟨t, r₂, hnext, h⟩ := bind_eq_ok h
      cases hn : t.lexeme with
      | name n =>
        rw [hn] at h
        obtain ⟨_, _, -, h⟩ := bind_eq_ok h
        cases h
        exact isNameText_of_next hnext hn
      | _ =>
        rw [hn] at h
        cases h
    · cases hname
  | _ => rcases hname with hname | hname <;> cases hname

end Statement

namespace Assembly

variable {setting : Setting} {s t : State} {vs : List Visit}

/-- Every statement of a run was read. -/
theorem Clean.exists_parse (h : Clean setting s vs t) {v : Visit} (hv : v ∈ vs) :
    ∃ r, Statement.parse (v.before.context setting) v.before.reading = .ok v.statement r := by
  induction h with
  | finish => cases hv
  | close _ _ _ ih => exact ih hv
  | carry parsed _ _ ih =>
    rcases List.mem_cons.mp hv with rfl | hv
    · exact ⟨_, parsed⟩
    · exact ih hv

/-- If no statement opens a scope, all are in the outermost one. -/
theorem Clean.path_eq_nil (h : Clean setting s vs t) (hs : s.scopes.path = [])
    (hflat : ∀ v ∈ vs, ∀ name, v.statement ≠ .openScope name) :
    ∀ v ∈ vs, v.before.scopes.path = [] := by
  induction h with
  | finish => exact fun _ hv => nomatch hv
  | close parsed _ _ ih =>
    exact ih ((Statement.parse_sameValues parsed).path.trans hs) hflat
  | @carry s t u statement r vs parsed effect rest ih =>
    intro v hv
    rcases List.mem_cons.mp hv with rfl | hv
    · exact hs
    · have hr : (s.resume r).scopes.path = [] := (Statement.parse_sameValues parsed).path.trans hs
      have hu : u.scopes.path = [] := by
        rw [effect.path, hr]
        cases statement with
        | openScope name => exact absurd rfl (hflat _ List.mem_cons_self name)
        | _ => rfl
      exact ih hu (fun v hv => hflat v (List.mem_cons_of_mem _ hv)) v hv

end Assembly

open Assembler6502.Assembly

namespace Session

variable {disk : Disk} {input : Input} {job done : Job} {report : Report} {scope : List String}
  {name : String} {d : Definition}

/-- A value at the end of a run goes back to a statement in its scope that the first pass has
carried out. -/
theorem Passes.exists_binding (p : Passes disk input job report done)
    (hd : done.session.scopes.definitionAt scope name = some d) :
    ∃ v ∈ firstVisits disk input job.session, v.before.scopes.path = scope ∧
      (v.statement.label? = some name ∨ v.statement.target? = some name) := by
  rw [p.scopes_eq] at hd
  rcases p.second.exists_binding hd with hbetween | ⟨w, hw, rfl, hbinding⟩
  · -- a label of the first pass
    have hbetween : ((p.middle.assigned.foldl Scopes.eraseEverywhere p.middle.scopes).definitionAt
        scope name) = some d := hbetween
    rw [Scopes.definitionAt_foldl_eraseEverywhere] at hbetween
    split at hbetween
    · cases hbetween
    · rcases p.first.exists_binding hbetween with hstart | ⟨v, hv, hpath, hbinding⟩
      · cases hstart
      · refine ⟨v, hv, hpath, ?_⟩
        exact (Statement.label?_or_target? hbinding).imp_left And.right
  · -- the second pass assigns where the first one does
    rcases Statement.label?_or_target? hbinding with ⟨hpass, -⟩ | htarget
    · cases hpass
    · by_contra hnone
      refine unassigned_of_inStep p.together.inStep (fun v hv hassigns => hnone ?_) w hw
        ⟨rfl, htarget⟩
      exact ⟨v, hv, hassigns.1.symm, .inr hassigns.2⟩

/-- What has a value at the end of a run has the text of a name. -/
theorem Passes.isNameText (p : Passes disk input job report done)
    (hd : done.session.scopes.definitionAt scope name = some d) : Byte.IsNameText name := by
  obtain ⟨v, hv, -, hname⟩ := p.exists_binding hd
  obtain ⟨r, hparse⟩ := p.first.exists_parse hv
  exact Statement.isNameText_of_parse hparse hname

/-- If no scope is opened, what has a value has it in the outermost one. -/
theorem Passes.outermost (p : Passes disk input job report done)
    (hflat : ∀ v ∈ firstVisits disk input job.session, ∀ name, v.statement ≠ .openScope name)
    (hd : done.session.scopes.definitionAt scope name = some d) : scope = [] := by
  obtain ⟨v, hv, rfl, -⟩ := p.exists_binding hd
  exact p.first.path_eq_nil rfl hflat v hv

end Session

end Assembler6502
