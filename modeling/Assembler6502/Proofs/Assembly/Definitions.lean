/-
Names with a value, from statement to statement.

What a name stands for changes only where a label or an assignment is carried
out, and a label that has its address keeps it to the end of the pass.

* **`Effect.definitionAt`** — what a statement binds;
* **`Clean.label`** — a label that is placed keeps its address, and no
  assignment in the whole run is to its name in its scope;
* **`Clean.definitionAt_of_unassigned`** — the second pass changes the values
  of assigned names only;
* **`Clean.exists_binding`** — where a value comes from.
-/
import Assembler6502.Proofs.Assembly.Visits
import Assembler6502.Proofs.Statement.Agreement
import Assembler6502.Proofs.Statement.Values

namespace Assembler6502

namespace Statement

/-! ### What statements bind -/

/-- The label that a statement places. -/
def label? : Statement → Option String
  | .label name | .openScope name => some name
  | _ => none

/-- The name that a statement assigns to. -/
def target? : Statement → Option String
  | .assign name _ _ => some name
  | _ => none

/-- The name that a statement at an address gives a value. -/
def binding? (pass : Pass) (address : Int32) : Statement → Option (String × Definition)
  | .label name | .openScope name =>
    if pass = .first then some (name, ⟨.label, address⟩) else none
  | .assign name value relocatable =>
    some (name, ⟨if relocatable then .label else .identifier, value⟩)
  | _ => none

theorem binding?_of_label? {statement : Statement} {name : String} (address : Int32)
    (h : statement.label? = some name) :
    statement.binding? .first address = some (name, ⟨.label, address⟩) := by
  cases statement <;> cases h <;> rfl

/-- A name gets a value by a label of the first pass or by an assignment. -/
theorem label?_or_target? {statement : Statement} {pass : Pass} {address : Int32} {name : String}
    {d : Definition} (h : statement.binding? pass address = some (name, d)) :
    (pass = .first ∧ statement.label? = some name) ∨ statement.target? = some name := by
  cases statement with
  | label _ | openScope _ =>
    cases pass with
    | first =>
      cases h
      exact .inl ⟨rfl, rfl⟩
    | second => cases h
  | assign _ _ _ =>
    cases h
    exact .inr rfl
  | _ => cases h

/-- Readings of one statement assign to the same name. -/
theorem Alike.target? {a b : Statement} (h : a.Alike b) : a.target? = b.target? := by
  cases h.kinds <;> rfl

end Statement

namespace Assembly

variable {setting : Setting} {statement : Statement} {s t : State} {vs : List Visit}

/-- A statement changes the value that it binds, and no other. -/
theorem Effect.definitionAt (h : Effect setting statement s t) (scope : List String)
    (name : String) :
    t.scopes.definitionAt scope name =
      match statement.binding? setting.pass s.address with
      | some (bound, d) =>
        if scope = s.scopes.path ∧ name = bound then some d else s.scopes.definitionAt scope name
      | none => s.scopes.definitionAt scope name := by
  have hlabelled : ∀ label : String,
      (s.labelled setting.pass label).scopes.definitionAt scope name =
        match (if setting.pass = .first then some (label, ⟨.label, s.address⟩) else none :
          Option (String × Definition)) with
        | some (bound, d) =>
          if scope = s.scopes.path ∧ name = bound then some d else s.scopes.definitionAt scope name
        | none => s.scopes.definitionAt scope name := by
    intro label
    unfold State.labelled
    by_cases hpass : setting.pass = .first
    · rw [if_pos hpass, if_pos hpass]
      exact s.scopes.definitionAt_insert label _ scope name
    · rw [if_neg hpass, if_neg hpass]
  cases h with
  | label => exact hlabelled _
  | openScope _ entered =>
    show Scopes.definitionAt _ scope name = _
    rw [Scopes.definitionAt_enter? entered]
    exact hlabelled _
  | assign => exact s.scopes.definitionAt_insert _ _ scope name
  | closeScope left =>
    show Scopes.definitionAt _ scope name = _
    rw [Scopes.definitionAt_leave? left]
    rfl
  | _ => rfl

/-- What is neither placed nor assigned keeps its value. -/
theorem Effect.definitionAt_eq (h : Effect setting statement s t) {scope : List String}
    {name : String}
    (hlabel : setting.pass = .first → scope = s.scopes.path → statement.label? ≠ some name)
    (htarget : scope = s.scopes.path → statement.target? ≠ some name) :
    t.scopes.definitionAt scope name = s.scopes.definitionAt scope name := by
  rw [h.definitionAt]
  split
  · next bound d hbinding =>
    split
    · next heq =>
      obtain ⟨hscope, rfl⟩ := heq
      rcases Statement.label?_or_target? hbinding with ⟨hpass, hl⟩ | ht
      · exact absurd hl (hlabel hpass hscope)
      · exact absurd ht (htarget hscope)
    · rfl
  · rfl

/-- A label is placed where its name has no value. -/
theorem Effect.free (h : Effect setting statement s t) (hpass : setting.pass = .first)
    {name : String} (hlabel : statement.label? = some name) :
    s.scopes.definitionAt s.scopes.path name = none := by
  cases h with
  | label free =>
    cases hlabel
    exact Scopes.definitionAt_path_eq_none_iff.mpr (free hpass)
  | openScope free =>
    cases hlabel
    exact Scopes.definitionAt_path_eq_none_iff.mpr (free hpass)
  | _ => cases hlabel

/-- A name that has a value goes on having one. -/
theorem Effect.definitionAt_isSome (h : Effect setting statement s t) {scope : List String}
    {name : String} (hs : (s.scopes.definitionAt scope name).isSome) :
    (t.scopes.definitionAt scope name).isSome := by
  rw [h.definitionAt]
  split
  · split
    · rfl
    · exact hs
  · exact hs

/-- A value stays where nothing is assigned, since no label is placed over one. -/
theorem Effect.definition_kept (h : Effect setting statement s t) {scope : List String}
    {name : String} {d : Definition}
    (htarget : scope = s.scopes.path → statement.target? ≠ some name)
    (hs : s.scopes.definitionAt scope name = some d) :
    t.scopes.definitionAt scope name = some d := by
  rw [h.definitionAt_eq ?_ htarget, hs]
  rintro hpass rfl hlabel
  rw [h.free hpass hlabel] at hs
  cases hs

/-- Only an assignment adds to the assigned names. -/
theorem Effect.assigned (h : Effect setting statement s t) (htarget : statement.target? = none) :
    t.assigned = s.assigned := by
  cases h with
  | assign => cases htarget
  | label => rw [State.labelled_eq]
  | openScope => rw [State.labelled_eq]
  | _ => rfl

/-! ### Clean runs -/

/-- Whether a visit assigns to a name of a scope. -/
def Visit.Assigns (scope : List String) (name : String) (v : Visit) : Prop :=
  scope = v.before.scopes.path ∧ v.statement.target? = some name

/-- Before a label is placed its name has no value. -/
theorem Clean.definitionAt_eq_none (h : Clean setting s vs t) (hpass : setting.pass = .first)
    {v : Visit} (hv : v ∈ vs) {name : String} (hlabel : v.statement.label? = some name) :
    s.scopes.definitionAt v.before.scopes.path name = none := by
  induction h with
  | finish => cases hv
  | close parsed _ _ ih =>
    have hsame := Statement.parse_sameValues parsed
    exact (hsame.definitionAt _ _).symm.trans (ih hv)
  | @carry s t u statement r vs parsed effect rest ih =>
    have hsame : s.reading.SameValues r := Statement.parse_sameValues parsed
    rcases List.mem_cons.mp hv with rfl | hv
    · have hfree := effect.free hpass hlabel
      rw [State.resume, hsame.definitionAt, hsame.path] at hfree
      exact hfree
    · -- a value would still be there when the label is placed
      have hu := ih hv
      cases hd : s.scopes.definitionAt v.before.scopes.path name with
      | none => rfl
      | some d =>
        have hr : ((s.resume r).scopes.definitionAt v.before.scopes.path name).isSome := by
          rw [State.resume, hsame.definitionAt]
          exact Option.isSome_of_eq_some hd
        have hsome := effect.definitionAt_isSome hr
        rw [hu] at hsome
        cases hsome

/-- A label keeps its address to the end of the run, and its name is not assigned to. -/
theorem Clean.label_kept (h : Clean setting s vs t) {scope : List String} {name : String}
    {address : Int32} (hs : s.scopes.definitionAt scope name = some ⟨.label, address⟩) :
    t.scopes.definitionAt scope name = some ⟨.label, address⟩ ∧
      ∀ v ∈ vs, ¬ v.Assigns scope name := by
  induction h with
  | finish parsed =>
    have hsame := Statement.parse_sameValues parsed
    exact ⟨(hsame.definitionAt _ _).trans hs, fun _ hv => nomatch hv⟩
  | close parsed _ _ ih =>
    have hsame := Statement.parse_sameValues parsed
    exact ih ((hsame.definitionAt _ _).trans hs)
  | @carry s t u statement r vs parsed effect rest ih =>
    have hsame : s.reading.SameValues r := Statement.parse_sameValues parsed
    have hr : (s.resume r).scopes.definitionAt scope name = some ⟨.label, address⟩ :=
      (hsame.definitionAt _ _).trans hs
    have htarget : scope = s.scopes.path → statement.target? ≠ some name := by
      rintro rfl ht
      cases statement with
      | assign _ _ _ =>
        cases ht
        exact Statement.parse_assign parsed address hs
      | _ => cases ht
    obtain ⟨ht, hrest⟩ := ih
      (effect.definition_kept (fun hscope => htarget (hscope.trans hsame.path)) hr)
    refine ⟨ht, fun v hv => ?_⟩
    rcases List.mem_cons.mp hv with rfl | hv
    · exact fun hassigns => htarget hassigns.1 hassigns.2
    · exact hrest v hv

/-- A label that the first pass places has its address at the end, and no assignment of the pass is
to its name in its scope. -/
theorem Clean.label (h : Clean setting s vs t) (hpass : setting.pass = .first) {v : Visit}
    (hv : v ∈ vs) {name : String} (hlabel : v.statement.label? = some name) :
    t.scopes.definitionAt v.before.scopes.path name = some ⟨.label, v.before.address⟩ ∧
      ∀ u ∈ vs, ¬ u.Assigns v.before.scopes.path name := by
  induction h with
  | finish => cases hv
  | close _ _ _ ih => exact ih hv
  | @carry s t u statement r vs parsed effect rest ih =>
    have hsame : s.reading.SameValues r := Statement.parse_sameValues parsed
    have hbound := effect.definitionAt v.before.scopes.path name
    rcases List.mem_cons.mp hv with rfl | hv
    · rw [hpass, Statement.binding?_of_label? _ hlabel] at hbound
      dsimp only at hbound
      rw [if_pos ⟨hsame.path.symm, rfl⟩] at hbound
      obtain ⟨ht, hrest⟩ := rest.label_kept hbound
      refine ⟨ht, fun w hw => ?_⟩
      rcases List.mem_cons.mp hw with rfl | hw
      · rintro ⟨-, htarget⟩
        cases statement with
        | assign _ _ _ => cases hlabel
        | _ => cases htarget
      · exact hrest w hw
    · obtain ⟨ht, hrest⟩ := ih hv
      refine ⟨ht, fun w hw => ?_⟩
      rcases List.mem_cons.mp hw with rfl | hw
      · -- an assignment would leave a value where the label is placed
        rintro ⟨hscope, htarget⟩
        rw [rest.definitionAt_eq_none hpass hv hlabel] at hbound
        cases statement with
        | assign _ _ _ =>
          cases htarget
          dsimp only [Statement.binding?] at hbound
          rw [if_pos ⟨hscope.trans hsame.path.symm, rfl⟩] at hbound
          cases hbound
        | _ => cases htarget
      · exact hrest w hw

/-- The second pass changes the values of names that it assigns to, and no others. -/
theorem Clean.definitionAt_of_unassigned (h : Clean setting s vs t)
    (hpass : setting.pass = .second) {scope : List String} {name : String}
    (hno : ∀ v ∈ vs, ¬ v.Assigns scope name) :
    t.scopes.definitionAt scope name = s.scopes.definitionAt scope name := by
  induction h with
  | finish parsed => exact (Statement.parse_sameValues parsed).definitionAt _ _
  | close parsed _ _ ih =>
    exact (ih hno).trans ((Statement.parse_sameValues parsed).definitionAt _ _)
  | @carry s t u statement r vs parsed effect rest ih =>
    have hsame : s.reading.SameValues r := Statement.parse_sameValues parsed
    have hu : u.scopes.definitionAt scope name = (s.resume r).scopes.definitionAt scope name := by
      refine effect.definitionAt_eq (fun hfirst => ?_) fun hscope htarget => ?_
      · rw [hpass] at hfirst
        cases hfirst
      · exact hno _ List.mem_cons_self ⟨hscope.trans hsame.path, htarget⟩
    rw [ih fun v hv => hno v (List.mem_cons_of_mem _ hv), hu]
    exact hsame.definitionAt _ _

/-- What has a value at the end of a run had it before, or a statement in its scope bound it. -/
theorem Clean.exists_binding (h : Clean setting s vs t) {scope : List String} {name : String}
    {d : Definition} (ht : t.scopes.definitionAt scope name = some d) :
    s.scopes.definitionAt scope name = some d ∨
      ∃ v ∈ vs, v.before.scopes.path = scope ∧
        v.statement.binding? setting.pass v.before.address = some (name, d) := by
  induction h with
  | finish parsed =>
    exact .inl (((Statement.parse_sameValues parsed).definitionAt _ _).symm.trans ht)
  | close parsed _ _ ih =>
    refine (ih ht).imp_left fun hs => ?_
    exact ((Statement.parse_sameValues parsed).definitionAt _ _).symm.trans hs
  | @carry s t u statement r vs parsed effect rest ih =>
    have hsame : s.reading.SameValues r := Statement.parse_sameValues parsed
    have hkept : (s.resume r).scopes.definitionAt scope name = some d →
        s.scopes.definitionAt scope name = some d := (hsame.definitionAt _ _).symm.trans
    rcases ih ht with hu | ⟨v, hv, hbinding⟩
    · rw [effect.definitionAt] at hu
      split at hu
      · next bound d' hbinding =>
        split at hu
        · next heq =>
          obtain ⟨rfl, rfl⟩ := heq
          cases hu
          exact .inr ⟨_, List.mem_cons_self, hsame.path.symm, hbinding⟩
        · exact .inl (hkept hu)
      · exact .inl (hkept hu)
    · exact .inr ⟨v, List.mem_cons_of_mem _ hv, hbinding⟩

/-- A run without assignments keeps all values. -/
theorem Clean.definition_kept (h : Clean setting s vs t)
    (hno : ∀ v ∈ vs, v.statement.target? = none) {scope : List String} {name : String}
    {d : Definition} (hs : s.scopes.definitionAt scope name = some d) :
    t.scopes.definitionAt scope name = some d := by
  induction h with
  | finish parsed => exact ((Statement.parse_sameValues parsed).definitionAt _ _).trans hs
  | close parsed _ _ ih =>
    exact ih hno (((Statement.parse_sameValues parsed).definitionAt _ _).trans hs)
  | @carry s t u statement r vs parsed effect rest ih =>
    have hsame : s.reading.SameValues r := Statement.parse_sameValues parsed
    refine ih (fun v hv => hno v (List.mem_cons_of_mem _ hv)) (effect.definition_kept ?_ ?_)
    · intro _ htarget
      rw [hno _ List.mem_cons_self] at htarget
      cases htarget
    · exact (hsame.definitionAt _ _).trans hs

theorem Clean.assigned (h : Clean setting s vs t) (hno : ∀ v ∈ vs, v.statement.target? = none) :
    t.assigned = s.assigned := by
  induction h with
  | finish => rfl
  | close _ _ _ ih => exact ih hno
  | carry _ effect _ ih =>
    rw [ih fun v hv => hno v (List.mem_cons_of_mem _ hv),
      effect.assigned (hno _ List.mem_cons_self)]
    rfl

end Assembly

end Assembler6502
