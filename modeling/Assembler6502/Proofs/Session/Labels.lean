/-
Labels and the names that are forgotten.

Between the passes every name that was assigned to is forgotten, so that the
second pass binds it anew.  It is forgotten in all scopes.  A label of that name
in another scope is lost with it, because the second pass sets no labels.

* **`Clean.mem_assigned`** — the names that a first pass assigns to;
* **`Clean.definitionAt_before`** — values during the second pass;
* **`Visit.Inside`**, **`Visit.Means`** — the scopes from which a name is looked
  for in a scope, and what it is read as;
* **`label_kept_iff`** — a label is kept, listed and read with its address if its
  name is assigned to nowhere, and is lost in both ways otherwise;
* **`label_kept_iff_shadowing`** — a run that succeeds and has lost a label.
-/
import Assembler6502.Proofs.Expression.Names
import Assembler6502.Proofs.Session.Phase

namespace Assembler6502

namespace Assembly

variable {setting : Setting} {statement : Statement} {s t : State} {vs : List Visit}

/-! ### Names that are assigned to -/

theorem Effect.mem_assigned (h : Effect setting statement s t) (hpass : setting.pass = .first)
    {name : String} :
    name ∈ t.assigned ↔ name ∈ s.assigned ∨ statement.target? = some name := by
  cases htarget : statement.target? with
  | none => simp [h.assigned htarget]
  | some target =>
    cases h with
    | assign =>
      cases htarget
      rw [if_pos hpass]
      simp [eq_comm]
    | _ => cases htarget

/-- The first pass keeps the names that it assigns to. -/
theorem Clean.mem_assigned (h : Clean setting s vs t) (hpass : setting.pass = .first)
    {name : String} :
    name ∈ t.assigned ↔ name ∈ s.assigned ∨ ∃ v ∈ vs, v.statement.target? = some name := by
  induction h with
  | finish => simp [State.resume]
  | close _ _ _ ih => exact ih
  | carry _ effect _ ih =>
    rw [ih, effect.mem_assigned hpass, List.exists_mem_cons_iff, or_assoc]
    rfl

/-! ### Values during the second pass -/

/-- A name that is not assigned to has the same value all along. -/
theorem Clean.definitionAt_before (h : Clean setting s vs t) (hpass : setting.pass = .second)
    {scope : List String} {name : String} (hno : ∀ v ∈ vs, ¬ v.Assigns scope name) {w : Visit}
    (hw : w ∈ vs) :
    w.before.scopes.definitionAt scope name = s.scopes.definitionAt scope name := by
  induction h with
  | finish => cases hw
  | close parsed _ _ ih =>
    exact (ih hno hw).trans ((Statement.parse_sameValues parsed).definitionAt _ _)
  | @carry s t u statement r vs parsed effect rest ih =>
    have hsame : s.reading.SameValues r := Statement.parse_sameValues parsed
    rcases List.mem_cons.mp hw with rfl | hw
    · rfl
    · rw [ih (fun v hv => hno v (List.mem_cons_of_mem _ hv)) hw]
      have hu : u.scopes.definitionAt scope name = (s.resume r).scopes.definitionAt scope name := by
        refine effect.definitionAt_eq (fun hfirst => ?_) fun hscope htarget => ?_
        · rw [hpass] at hfirst
          cases hfirst
        · exact hno _ List.mem_cons_self ⟨hscope.trans hsame.path, htarget⟩
      rw [hu]
      exact hsame.definitionAt _ _

/-! ### Reading a name -/

/-- A statement in a scope or further in, with no value for a name on the way out to the scope. -/
def Visit.Inside (scope : List String) (name : String) (w : Visit) : Prop :=
  ∃ inner, w.before.scopes.path = inner ++ scope ∧
    ∀ nearer, nearer ≠ [] → nearer <:+ inner →
      w.before.scopes.definitionAt (nearer ++ scope) name = none

/-- Wherever a statement reads a name as a factor, it is a value.  While the statement is read, the
scopes have the values that they had before it. -/
def Visit.Means (setting : Setting) (name : String) (d : Definition) (w : Visit) : Prop :=
  ∀ {r : Reading} {word : Spelling} {p : Position} {cursor : Cursor} (nested : Parser Expr),
    w.before.reading.SameValues r → r.cursor.next = (.ok ⟨.name word, p⟩, cursor) →
    word.text = name →
    ∃ r', Expr.factor (w.before.context setting) nested r =
      .ok (.value d.value (d.kind = .label)) r'

/-- A name means the value that it has in a scope around. -/
theorem Visit.Inside.means {scope : List String} {name : String} {w : Visit} {d : Definition}
    (h : w.Inside scope name) (hpass : setting.pass = .second)
    (hd : w.before.scopes.definitionAt scope name = some d) : w.Means setting name d := by
  intro r word p cursor nested hsame hnext hword
  obtain ⟨inner, hpath, hbetween⟩ := h
  subst hword
  have hsame' : r.scopes.resolve word.text = w.before.scopes.resolve word.text :=
    Scopes.resolve_congr hsame.path fun scope => hsame.definitionAt scope word.text
  exact ⟨_, Expr.factor_name hpass hnext
    (hsame'.trans (Scopes.resolve_inside hpath hbetween hd))⟩

end Assembly

open Assembler6502.Assembly

namespace Session

variable {disk : Disk} {input : Input} {job done : Job} {report : Report}

/-! ### Labels between and after the passes -/

theorem Passes.mem_assigned (p : Passes disk input job report done) {name : String} :
    name ∈ p.middle.assigned ↔
      ∃ u ∈ firstVisits disk input job.session, u.statement.target? = some name := by
  rw [p.first.mem_assigned rfl]
  exact or_iff_right List.not_mem_nil

/-- What a label has at every statement of the second pass is what it has at the end. -/
theorem Passes.definitionAt_label_before (p : Passes disk input job report done) {v w : Visit}
    (hv : v ∈ firstVisits disk input job.session) {name : String}
    (hlabel : v.statement.label? = some name) (hw : w ∈ secondVisits disk input job) :
    w.before.scopes.definitionAt v.before.scopes.path name =
      done.session.scopes.definitionAt v.before.scopes.path name := by
  have hno := unassigned_of_inStep p.together.inStep (p.first.label rfl hv hlabel).2
  rw [p.second.definitionAt_before rfl hno hw, p.scopes_eq,
    p.second.definitionAt_of_unassigned rfl hno]

/-- A label of the first pass keeps its address if and only if no statement assigns to its name, be
it in another scope.  A label that is kept is listed under its qualified name, and inside its scope
the second pass reads its name as its address.  A label that is not kept has no value, neither at
the end nor at any statement of the second pass. -/
theorem label_kept_iff (h : assemble disk input job = .ok report done) {v : Visit}
    (hv : v ∈ firstVisits disk input job.session) {name : String}
    (hlabel : v.statement.label? = some name) :
    (done.session.scopes.definitionAt v.before.scopes.path name =
        some ⟨.label, v.before.address⟩ ↔
      ∀ u ∈ firstVisits disk input job.session, u.statement.target? ≠ some name) ∧
    ((∀ u ∈ firstVisits disk input job.session, u.statement.target? ≠ some name) →
      (ScopedName.qualified ⟨v.before.scopes.path, name⟩, ⟨.label, v.before.address⟩) ∈
          done.session.scopes.entries ∧
        ∀ w ∈ secondVisits disk input job, w.Inside v.before.scopes.path name →
          w.Means (job.session.setting .second disk) name ⟨.label, v.before.address⟩) ∧
    ((∃ u ∈ firstVisits disk input job.session, u.statement.target? = some name) →
      done.session.scopes.definitionAt v.before.scopes.path name = none ∧
        ∀ w ∈ secondVisits disk input job,
          w.before.scopes.definitionAt v.before.scopes.path name = none) := by
  obtain ⟨p⟩ := passes_of_assemble h
  have hdefinition := p.definitionAt_label hv hlabel
  have hkept : (∀ u ∈ firstVisits disk input job.session, u.statement.target? ≠ some name) →
      done.session.scopes.definitionAt v.before.scopes.path name =
        some ⟨.label, v.before.address⟩ := by
    intro hno
    rw [hdefinition, if_neg]
    intro hassigned
    obtain ⟨u, hu, htarget⟩ := p.mem_assigned.mp hassigned
    exact hno u hu htarget
  have hlost : (∃ u ∈ firstVisits disk input job.session, u.statement.target? = some name) →
      done.session.scopes.definitionAt v.before.scopes.path name = none := by
    intro hassigned
    rw [hdefinition, if_pos (p.mem_assigned.mpr hassigned)]
  refine ⟨⟨?_, hkept⟩, ?_, ?_⟩
  · intro hvalue u hu htarget
    rw [hlost ⟨u, hu, htarget⟩] at hvalue
    cases hvalue
  · intro hno
    refine ⟨Scopes.mem_entries (hkept hno), fun w hw hinside => hinside.means rfl ?_⟩
    rw [p.definitionAt_label_before hv hlabel hw]
    exact hkept hno
  · intro hassigned
    refine ⟨hlost hassigned, fun w hw => ?_⟩
    rw [p.definitionAt_label_before hv hlabel hw]
    exact hlost hassigned

/-- A label in a scope, and an assignment to its name outside. -/
def shadowingInput : Input :=
  .text "main" (Byte.ofChars "n=5\n.proc p\nn: jmp n\n.endproc\n".toList)

/-- The jump inside the scope leads to the number outside, and nothing is left of the label. -/
theorem label_kept_iff_shadowing :
    ∃ report done v, assemble (.empty []) shadowingInput .plain = .ok report done ∧
      v ∈ firstVisits (.empty []) shadowingInput Job.plain.session ∧
      v.statement.label? = some "n" ∧ v.before.scopes.path = ["p"] ∧
      done.writer.written = [0x4c, 0x05, 0x00] ∧
      done.session.scopes.definitions =
        [(⟨[], "n"⟩, ⟨.identifier, 5⟩), (⟨[], "p"⟩, ⟨.label, 0x1000⟩)] ∧
      done.session.scopes.definitionAt ["p"] "n" = none := by
  obtain ⟨report, done, hrun, hresult⟩ :=
    exists_of_trace (n := 9)
      (f := fun (vs, _, _, done) => decide
        (vs[2]?.map (fun v => (v.statement.label?, v.before.scopes.path)) =
            some (some "n", ["p"]) ∧
          (∃ u ∈ vs, u.statement.target? = some "n") ∧
          done.writer.written = [0x4c, 0x05, 0x00] ∧
          done.session.scopes.definitions =
            [(⟨[], "n"⟩, ⟨.identifier, 5⟩), (⟨[], "p"⟩, ⟨.label, 0x1000⟩)]))
      (show (trace 9 (.empty []) shadowingInput .plain).map _ = some true by decide +kernel)
  obtain ⟨hvisit, hassigned, hwritten, hdefinitions⟩ := of_decide_eq_true hresult
  obtain ⟨v, hv, heq⟩ := Option.map_eq_some_iff.mp hvisit
  obtain ⟨hlabel, hpath⟩ := Prod.mk.inj heq
  have hmem := List.mem_of_getElem? hv
  have hlost := ((label_kept_iff hrun hmem hlabel).2.2 hassigned).1
  rw [hpath] at hlost
  exact ⟨report, done, v, hrun, hmem, hlabel, hpath, hwritten, hdefinitions, hlost⟩

end Session

end Assembler6502
