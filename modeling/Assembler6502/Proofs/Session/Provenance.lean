/-
Where the values of the second pass come from.

The second pass starts with the labels of the first one whose names were not
assigned to.  All other values it makes itself, one assignment after the other.
So a name never stands for what only the first pass has assigned to it.

* **`lastAssigned`** — the value of the last assignment to a name of a scope;
* **`Advances.definitionAt`** — the values at any point of a second pass, be it
  one with errors: those assigned so far, and the others from its start;
* **`Clean.exists_label`** — where a value comes from that is not assigned;
* **`values_fresh`** — what has a value between the passes, and what a name is
  read as in the second one;
* **`values_fresh_counter`** — a name that is read between two assignments.
-/
import Assembler6502.Proofs.Assembly.Refusals
import Assembler6502.Proofs.Session.Labels

namespace Assembler6502

namespace Assembly

variable {setting : Setting} {statement : Statement} {s t : State} {vs : List Visit}
  {scope : List String} {name : String} {d : Definition}

/-! ### Values of the second pass -/

/-- The value that a statement assigns to a name of a scope. -/
def Visit.assigned? (scope : List String) (name : String) (v : Visit) : Option Definition :=
  match v.statement with
  | .assign target value relocatable =>
    if scope = v.before.scopes.path ∧ name = target then
      some ⟨if relocatable then .label else .identifier, value⟩
    else none
  | _ => none

theorem Visit.assigned?_of_target? {v : Visit} (h : v.statement.target? = none) :
    v.assigned? scope name = none := by
  obtain ⟨before, statement⟩ := v
  cases statement with
  | assign => cases h
  | _ => rfl

/-- The value that the last of the assignments to a name of a scope gives it. -/
def lastAssigned (scope : List String) (name : String) (vs : List Visit) : Option Definition :=
  vs.reverse.findSome? (Visit.assigned? scope name)

theorem lastAssigned_append (us vs : List Visit) :
    lastAssigned scope name (us ++ vs) =
      (lastAssigned scope name vs).or (lastAssigned scope name us) := by
  rw [lastAssigned, List.reverse_append, List.findSome?_append]
  rfl

theorem lastAssigned_toList (v? : Option Visit) :
    lastAssigned scope name v?.toList = v?.bind (Visit.assigned? scope name) := by
  cases v? with
  | none => rfl
  | some v =>
    show List.findSome? _ [v] = _
    rw [List.findSome?_singleton]
    rfl

/-- In the second pass a statement changes what it assigns to. -/
theorem Effect.definitionAt_second (h : Effect setting statement s t)
    (hpass : setting.pass = .second) {before : State} (hpath : before.scopes.path = s.scopes.path) :
    t.scopes.definitionAt scope name =
      (Visit.assigned? scope name ⟨before, statement⟩).or (s.scopes.definitionAt scope name) := by
  rw [h.definitionAt, hpass]
  cases statement with
  | assign target value relocatable =>
    show (if _ then _ else _) = Option.or (if _ then _ else _) _
    rw [hpath]
    split <;> rfl
  | _ => rfl

theorem step_definitionAt (hpass : setting.pass = .second) (h : step setting s = .next t) :
    t.scopes.definitionAt scope name =
      (lastAssigned scope name (visit? setting s).toList).or
        (s.scopes.definitionAt scope name) := by
  rw [lastAssigned_toList]
  obtain ⟨hnone, hsame⟩ | ⟨statement, r, hsome, hsame, hcarried⟩ := step_cases h
  · rw [hnone]
    exact hsame.definitionAt scope name
  · rw [hsome]
    have hr : (s.resume r).scopes.definitionAt scope name = s.scopes.definitionAt scope name :=
      hsame.definitionAt scope name
    rcases hcarried with heffect | ⟨error, u, hrefusal, rfl⟩
    · rw [heffect.definitionAt_second hpass hsame.path.symm, hr]
      rfl
    · obtain rfl := hrefusal.second hpass
      show (s.resume r).scopes.definitionAt scope name = _
      rw [hr, Option.bind_some, Visit.assigned?_of_target? hrefusal.target?, Option.none_or]

/-- At any point of the second pass a name has the value of the last assignment so far, and if there
was none, the value that it had at the start. -/
theorem Advances.definitionAt (h : Advances setting s vs t) (hpass : setting.pass = .second) :
    t.scopes.definitionAt scope name =
      (lastAssigned scope name vs).or (s.scopes.definitionAt scope name) := by
  induction h with
  | refl => rfl
  | step first rest ih =>
    rw [ih, step_definitionAt hpass first, lastAssigned_append, Option.or_assoc]

/-- What a name can be as a factor of a statement that is read in a state.  While the statement is
read, the scopes have the values that they had before it. -/
def State.ReadsAs (setting : Setting) (t : State) (name : String) (e : Expr) : Prop :=
  ∃ r word p cursor nested r', t.reading.SameValues r ∧
    r.cursor.next = (.ok ⟨.name word, p⟩, cursor) ∧ word.text = name ∧
    Expr.factor (t.context setting) nested r = .ok e r'

theorem State.ReadsAs.resolve {e : Expr} (h : t.ReadsAs setting name e)
    (hpass : setting.pass = .second) :
    ∃ d : Definition, e = .value d.value (d.kind = .label) ∧ t.scopes.resolve name = some d := by
  obtain ⟨r, word, p, cursor, nested, r', hsame, hnext, rfl, hfactor⟩ := h
  obtain ⟨d, hd⟩ := Expr.resolve_of_factor hpass hnext hfactor
  rw [Expr.factor_name hpass hnext hd] at hfactor
  cases hfactor
  refine ⟨d, rfl, ?_⟩
  rw [← hd]
  exact (Scopes.resolve_congr hsame.path fun scope => hsame.definitionAt scope word.text).symm

/-! ### Values of the first pass -/

/-- What has a value at the end of the first pass and is not assigned to had it before or is a
label. -/
theorem Clean.exists_label (h : Clean setting s vs t)
    (hno : ∀ v ∈ vs, v.statement.target? ≠ some name)
    (ht : t.scopes.definitionAt scope name = some d) :
    s.scopes.definitionAt scope name = some d ∨
      ∃ v ∈ vs, v.statement.label? = some name ∧ v.before.scopes.path = scope ∧
        d = ⟨.label, v.before.address⟩ := by
  refine (h.exists_binding ht).imp_right fun ⟨v, hv, hpath, hbinding⟩ => ?_
  -- the statement that binds the name is a label, since nothing is assigned to the name
  rcases Statement.label?_or_target? hbinding with ⟨hpass, hlabel⟩ | htarget
  · rw [hpass, Statement.binding?_of_label? _ hlabel] at hbinding
    cases hbinding
    exact ⟨v, hv, hlabel, hpath, rfl⟩
  · exact absurd htarget (hno v hv)

end Assembly

open Assembler6502.Assembly

namespace Session

variable {disk : Disk} {input : Input} {s session : Session} {start : UInt16}
  {scope : List String} {name : String}

/-! ### Values between the passes -/

/-- Statements place a label at an address, and none of them assigns to its name. -/
structure IsLabel (vs : List Visit) (scope : List String) (name : String) (address : Int32) :
    Prop where
  placed : ∃ v ∈ vs, v.statement.label? = some name ∧ v.before.scopes.path = scope ∧
    v.before.address = address
  unassigned : ∀ u ∈ vs, u.statement.target? ≠ some name

/-- The labels of the first pass have their addresses between the passes, except those whose names
were assigned to, and nothing else has a value. -/
theorem definitionAt_between (h : firstPass disk input s = .ok start session) (d : Definition) :
    session.scopes.definitionAt scope name = some d ↔
      d.kind = .label ∧ IsLabel (firstVisits disk input s) scope name d.value := by
  obtain ⟨source, middle, -, hclean, -, rfl⟩ := firstPass_eq_ok h
  have hassigned : name ∈ middle.assigned ↔
      ∃ u ∈ firstVisits disk input s, u.statement.target? = some name :=
    (hclean.mem_assigned rfl).trans (or_iff_right List.not_mem_nil)
  have hbetween : (s.between middle).scopes.definitionAt scope name =
      if name ∈ middle.assigned then none else middle.scopes.definitionAt scope name :=
    Scopes.definitionAt_foldl_eraseEverywhere _ _ _ _
  rw [hbetween]
  constructor
  · intro hd
    split at hd
    · cases hd
    · next hnot =>
      have hno : ∀ u ∈ firstVisits disk input s, u.statement.target? ≠ some name :=
        fun u hu htarget => hnot (hassigned.mpr ⟨u, hu, htarget⟩)
      rcases hclean.exists_label hno hd with hstart | ⟨v, hv, hlabel, hpath, rfl⟩
      · -- no name has a value when the first pass starts
        cases hstart
      · exact ⟨rfl, ⟨v, hv, hlabel, hpath, rfl⟩, hno⟩
  · rintro ⟨hkind, ⟨v, hv, hlabel, rfl, hvalue⟩, hno⟩
    rw [if_neg, (hclean.label rfl hv hlabel).1, hvalue, ← hkind]
    intro hmem
    obtain ⟨u, hu, htarget⟩ := hassigned.mp hmem
    exact hno u hu htarget

/-! ### Names in the second pass -/

/-- What has a value in the second pass has it from the last assignment there so far, or it is a
label of the first pass. -/
theorem definitionAt_second (h : firstPass disk input s = .ok start session) {disk' : Disk}
    {source : Source} {image : Option Emitter} {vs : List Visit} {t : State}
    (hadvances : Advances (session.setting .second disk') (session.initial source image) vs t)
    {d : Definition} (hd : t.scopes.definitionAt scope name = some d) :
    lastAssigned scope name vs = some d ∨
      lastAssigned scope name vs = none ∧
        d.kind = .label ∧ IsLabel (firstVisits disk input s) scope name d.value := by
  rw [hadvances.definitionAt rfl] at hd
  refine (Option.or_eq_some_iff.mp hd).imp_right fun ⟨hnone, hstart⟩ => ?_
  exact ⟨hnone, (definitionAt_between h d).mp hstart⟩

/-- Every name that has a value between the passes is a label that the first pass has placed, and no
assignment of that pass is to its name in any scope.  In the second pass a name that is read as a
value has it from a scope around: from the last assignment to it that this pass has made so far, or,
if there is none yet, from such a label. -/
theorem values_fresh (h : firstPass disk input s = .ok start session) :
    (∀ scope name d, session.scopes.definitionAt scope name = some d ↔
      d.kind = .label ∧ IsLabel (firstVisits disk input s) scope name d.value) ∧
    ∀ disk' source image vs t,
      Advances (session.setting .second disk') (session.initial source image) vs t →
      ∀ name e, t.ReadsAs (session.setting .second disk') name e →
        ∃ scope ∈ Scopes.enclosing t.scopes.path, ∃ d : Definition,
          e = .value d.value (d.kind = .label) ∧
          (lastAssigned scope name vs = some d ∨
            lastAssigned scope name vs = none ∧
              d.kind = .label ∧ IsLabel (firstVisits disk input s) scope name d.value) := by
  refine ⟨fun scope name d => definitionAt_between h d, ?_⟩
  intro disk' source image vs t hadvances name e hreads
  obtain ⟨d, rfl, hresolve⟩ := hreads.resolve rfl
  obtain ⟨scope, hscope, hd⟩ := List.exists_of_findSome?_eq_some hresolve
  exact ⟨scope, hscope, d, rfl, definitionAt_second h hadvances hd⟩

/-- A number that is counted up in a scope, and set again outside. -/
def counterSource : Source :=
  ⟨"main", none, Byte.ofChars "n=1\n.proc p\nn=n+1\nq: .byte n\n.endproc\nn=7\n".toList⟩

/-- Before the number is counted up the second pass reads it as 1, as it has been assigned there,
though the first pass has ended with 7.  Of the names between the passes only labels are left. -/
theorem values_fresh_counter :
    ∃ start session vs t,
      firstPass (.empty []) (.text "main" counterSource.bytes) (.start {}) = .ok start session ∧
      Advances (session.setting .second (.empty [])) (session.initial counterSource none) vs t ∧
      IsLabel (firstVisits (.empty []) (.text "main" counterSource.bytes) (.start {}))
        ["p"] "q" 0x1000 ∧
      session.scopes.definitionAt [] "n" = none ∧
      t.ReadsAs (session.setting .second (.empty [])) "n" (.value 1 false) ∧
      ∃ scope d, d.value = 1 ∧ lastAssigned scope "n" vs = some d := by
  obtain ⟨⟨us, middle⟩, htrace, hmiddle⟩ := Option.map_eq_some_iff.mp
    (show ((Session.start {}).tracePass 9 (.empty []) counterSource .first none).map
      (fun x =>
        (decide (∃ u ∈ x.1, u.statement.target? = some "n"),
          ((Session.start {}).between x.2).scopes.definitionAt ["p"] "q",
          (steps (((Session.start {}).between x.2).setting .second (.empty [])) 2
            (((Session.start {}).between x.2).initial counterSource none)).map
              fun y => y.2.scopes.resolve "n")) =
      some (true, some ⟨.label, 0x1000⟩, some (some ⟨.identifier, 1⟩)) by decide +kernel)
  obtain ⟨hassigned, hmiddle⟩ := Prod.mk.inj hmiddle
  obtain ⟨hq, hsteps⟩ := Prod.mk.inj hmiddle
  obtain ⟨⟨vs, t⟩, hsteps, hresolve⟩ := Option.map_eq_some_iff.mp hsteps
  obtain ⟨rfl, hpass⟩ := tracePass_eq_some htrace
  have hfirst : firstPass (.empty []) (.text "main" counterSource.bytes) (.start {}) = .ok _ _ :=
    firstPass_of_runPass rfl hpass
  have hreads : t.ReadsAs (((Session.start {}).between middle).setting .second (.empty [])) "n"
      (.value 1 false) := by
    exact ⟨⟨counterSource, .ofBytes (Byte.ofChars ['n']), t.scopes⟩, ⟨"n", false⟩, .start, _,
      pure (.value 0 false), _, ⟨rfl, fun _ _ => rfl⟩, rfl, rfl,
      Expr.factor_name (d := ⟨.identifier, 1⟩) rfl rfl hresolve⟩
  obtain ⟨hbetween, hsecond⟩ := values_fresh hfirst
  obtain ⟨scope, -, d, he, hlast⟩ := hsecond _ _ _ _ _ (advances_of_steps hsteps) "n" _ hreads
  have hno : ∀ scope address, ¬ IsLabel
      (firstVisits (.empty []) (.text "main" counterSource.bytes) (.start {}))
        scope "n" address := by
    intro scope address hlabel
    obtain ⟨u, hu, htarget⟩ := of_decide_eq_true hassigned
    exact hlabel.unassigned u hu htarget
  refine ⟨_, _, vs, t, hfirst, advances_of_steps hsteps, ((hbetween _ _ _).mp hq).2, ?_, hreads,
    scope, d, ?_, ?_⟩
  · refine Option.eq_none_iff_forall_ne_some.mpr fun d hd => ?_
    exact hno _ _ ((hbetween _ _ _).mp hd).2
  · exact (Expr.value.inj he).1.symm
  · exact hlast.resolve_right fun hlabel => hno _ _ hlabel.2.2

end Session

end Assembler6502
