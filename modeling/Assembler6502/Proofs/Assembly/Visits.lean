/-
The statements that a pass carries out.

A pass is a run of steps, and each step closes a file or carries out a
statement.  `visits` lists these statements with the states in which they were
read, and `Clean` is a run in which none of them failed.

* **`clean_of_run`** — a pass that ends without an error is a clean run over
  its visits;
* **`walk_eq_some`** — a pass that ends within a number of steps, computed step
  by step.

Design notes.  A pass that notes an error goes on, but an error that is noted
stays.  So a pass that ends without errors has met none, and its steps are of
the three kinds that `Clean` names.
-/
import Assembler6502.Proofs.Assembly.Effect
import Mathlib.Logic.Relation

namespace Assembler6502

namespace Assembly

/-- A statement that a pass carries out, and the state in which it is read. -/
structure Visit where
  before : State
  statement : Statement

/-- The statement that the next step of a pass carries out, if it carries one out. -/
def visit? (setting : Setting) (s : State) : Option Visit :=
  match Statement.parse (s.context setting) s.reading with
  | .ok .endOfInput _ | .ok .undefined _ | .error _ _ => none
  | .ok statement _ => some ⟨s, statement⟩

/-- The statements that a pass carries out, in order. -/
def visits (setting : Setting) (s : State) : List Visit :=
  match _h : step setting s with
  | .next t => (visit? setting s).toList ++ visits setting t
  | .finished _ | .stopped _ _ => []
termination_by s.left
decreasing_by exact step_decreases _h

/-! ### Clean runs -/

/-- A run without errors from one state to another, with the statements it carries out. -/
inductive Clean (setting : Setting) : State → List Visit → State → Prop where
  /-- The main file ends. -/
  | finish {s : State} {r : Reading}
      (parsed : Statement.parse (s.context setting) s.reading = .ok .endOfInput r)
      (last : s.files.pop? = none) (closed : setting.pass = .first → r.scopes.depth = 0) :
      Clean setting s [] (s.resume r)
  /-- An included file ends. -/
  | close {s t : State} {r : Reading} {files : OpenFiles} {vs : List Visit}
      (parsed : Statement.parse (s.context setting) s.reading = .ok .endOfInput r)
      (popped : (s.resume r).files.pop? = some files)
      (rest : Clean setting { s.resume r with files } vs t) : Clean setting s vs t
  /-- A statement is read and carried out. -/
  | carry {s t u : State} {statement : Statement} {r : Reading} {vs : List Visit}
      (parsed : Statement.parse (s.context setting) s.reading = .ok statement r)
      (effect : Effect setting statement (s.resume r) u)
      (rest : Clean setting u vs t) : Clean setting s (⟨s, statement⟩ :: vs) t

variable {setting : Setting} {s t u : State}

theorem State.errors_note (s : State) (d : Diagnostic) : (s.note d).errors ≠ [] := by
  simp [State.note]

/-- The end of a file, in a step that notes no error. -/
theorem endFile_next (h : endFile setting s = .next t) :
    ∃ files, s.files.pop? = some files ∧ t = { s with files } := by
  unfold endFile at h
  split at h
  · next files hf =>
    cases h
    exact ⟨files, hf, rfl⟩
  · cases h

theorem endFile_finished (h : endFile setting s = .finished t) (he : t.errors = []) :
    s.files.pop? = none ∧ (setting.pass = .first → s.scopes.depth = 0) ∧ t = s := by
  unfold endFile at h
  split at h
  · cases h
  · next hf =>
    cases h
    unfold State.finish at he ⊢
    split at he
    · exact absurd he (State.errors_note _ _)
    · next hopen =>
      refine ⟨hf, fun hpass => ?_, if_neg hopen⟩
      exact Decidable.byContradiction fun hdepth => hopen ⟨hpass, hdepth⟩

/-- Carrying out a statement without an error is its effect. -/
theorem carryOut_next {statement : Statement} (hend : statement ≠ .endOfInput)
    (h : carryOut setting statement s = .next t) (he : t.errors = []) :
    Effect setting statement s t := by
  unfold carryOut at h
  split at h
  · next u hok =>
    cases h
    exact effect_of_execute hend hok
  · split at h
    · cases h
    · cases h
      exact absurd he (State.errors_note _ _)
  · cases h

theorem visit?_of_parse {statement : Statement} {r : Reading}
    (hparse : Statement.parse (s.context setting) s.reading = .ok statement r)
    (hend : statement ≠ .endOfInput) (hundefined : statement ≠ .undefined) :
    visit? setting s = some ⟨s, statement⟩ := by
  unfold visit?
  rw [hparse]
  split
  · next heq =>
    cases heq
    exact absurd rfl hend
  · next heq =>
    cases heq
    exact absurd rfl hundefined
  · next heq => cases heq
  · next heq =>
    cases heq
    rfl

/-- A step that leaves no error closes a file or carries out a statement. -/
theorem step_next (h : step setting s = .next t) (he : t.errors = []) :
    (∃ r files, Statement.parse (s.context setting) s.reading = .ok .endOfInput r ∧
      (s.resume r).files.pop? = some files ∧ t = { s.resume r with files } ∧
      visit? setting s = none) ∨
    ∃ statement r, Statement.parse (s.context setting) s.reading = .ok statement r ∧
      Effect setting statement (s.resume r) t ∧ visit? setting s = some ⟨s, statement⟩ := by
  unfold step at h
  split at h
  · next r hparse =>
    obtain ⟨files, hpop, rfl⟩ := endFile_next h
    refine .inl ⟨r, files, hparse, hpop, rfl, ?_⟩
    rw [visit?, hparse]
  · cases h
    exact absurd he (State.errors_note _ _)
  · next statement r hend hundefined hparse =>
    exact .inr ⟨statement, r, hparse, carryOut_next hend h he,
      visit?_of_parse hparse hend hundefined⟩
  · split at h
    · cases h
    · cases h
      exact absurd he (State.errors_note _ _)

/-- A step that ends the pass without an error has read the end of the main file. -/
theorem step_finished (h : step setting s = .finished t) (he : t.errors = []) :
    ∃ r, Statement.parse (s.context setting) s.reading = .ok .endOfInput r ∧
      s.files.pop? = none ∧ (setting.pass = .first → r.scopes.depth = 0) ∧ t = s.resume r := by
  unfold step at h
  split at h
  · next r hparse =>
    obtain ⟨hpop, hclosed, rfl⟩ := endFile_finished h he
    exact ⟨r, hparse, hpop, hclosed, rfl⟩
  · cases h
  · next statement r _ _ hparse =>
    unfold carryOut at h
    split at h
    · cases h
    · split at h <;> cases h
    · cases h
  · split at h <;> cases h

/-! ### Passes and clean runs -/

theorem visits_of_next (h : step setting s = .next t) :
    visits setting s = (visit? setting s).toList ++ visits setting t := by
  rw [visits]
  split <;> simp_all

theorem visits_of_finished (h : step setting s = .finished t) : visits setting s = [] := by
  rw [visits]
  split <;> simp_all

theorem visits_of_stopped {fault : Fault} (h : step setting s = .stopped fault t) :
    visits setting s = [] := by
  rw [visits]
  split <;> simp_all

/-- A pass that ends without an error is a clean run over its visits. -/
theorem clean_of_run (h : run setting s = .ok () t) (he : t.errors = []) :
    s.errors = [] ∧ Clean setting s (visits setting s) t := by
  fun_induction run setting s with
  | case1 s u hstep ih =>
    obtain ⟨hu, hclean⟩ := ih h
    rw [visits_of_next hstep]
    obtain ⟨r, files, hparse, hpop, rfl, hnone⟩ | ⟨statement, r, hparse, heffect, hsome⟩ :=
      step_next hstep hu
    · rw [hnone]
      exact ⟨hu, .close hparse hpop hclean⟩
    · rw [hsome]
      exact ⟨heffect.errors ▸ hu, .carry hparse heffect hclean⟩
  | case2 s u hstep =>
    cases h
    obtain ⟨r, hparse, hpop, hclosed, rfl⟩ := step_finished hstep he
    rw [visits_of_finished hstep]
    exact ⟨he, .finish hparse hpop hclosed⟩
  | case3 s fault u hstep => cases h

/-! ### States of a pass -/

/-- Steps lead from one state of a pass to another. -/
def Reaches (setting : Setting) : State → State → Prop :=
  Relation.ReflTransGen fun s t => step setting s = .next t

theorem run_of_reaches (h : Reaches setting s t) : run setting s = run setting t := by
  induction h with
  | refl => rfl
  | tail _ hstep ih => rw [ih, run_of_next hstep]

/-- Steps lead from one state of a pass to another and carry out statements on the way, or fail
to. -/
inductive Advances (setting : Setting) : State → List Visit → State → Prop where
  | refl {s : State} : Advances setting s [] s
  | step {s t u : State} {vs : List Visit} (first : step setting s = .next t)
      (rest : Advances setting t vs u) : Advances setting s ((visit? setting s).toList ++ vs) u

/-! ### Passes of a few steps -/

/-- The state after `n` steps, with the statements that they carry out. -/
def steps (setting : Setting) : Nat → State → Option (List Visit × State)
  | 0, s => some ([], s)
  | n + 1, s =>
    match step setting s with
    | .next t => (steps setting n t).map fun (vs, u) => ((visit? setting s).toList ++ vs, u)
    | .finished _ | .stopped _ _ => none

theorem advances_of_steps {n : Nat} {vs : List Visit} (h : steps setting n s = some (vs, t)) :
    Advances setting s vs t := by
  induction n generalizing s vs with
  | zero =>
    cases h
    exact .refl
  | succ n ih =>
    unfold steps at h
    split at h
    · next u hstep =>
      obtain ⟨⟨ws, t'⟩, hsteps, heq⟩ := Option.map_eq_some_iff.mp h
      cases heq
      exact .step hstep (ih hsteps)
    · cases h
    · cases h

/-- The visits of a pass and its end, if it ends within `n` steps. -/
def walk (setting : Setting) : Nat → State → Option (List Visit × EStateM.Result Fault State Unit)
  | 0, _ => none
  | n + 1, s =>
    match step setting s with
    | .next t =>
      (walk setting n t).map fun (vs, result) => ((visit? setting s).toList ++ vs, result)
    | .finished t => some ([], .ok () t)
    | .stopped fault t => some ([], .error fault t)

/-- What a pass has noted at its end. -/
def noted : EStateM.Result Fault State Unit → List Cause
  | .ok _ t | .error _ t => t.errors.map Diagnostic.cause

theorem walk_eq_some {n : Nat} {vs : List Visit} {result : EStateM.Result Fault State Unit}
    (h : walk setting n s = some (vs, result)) :
    visits setting s = vs ∧ run setting s = result := by
  induction n generalizing s vs with
  | zero => cases h
  | succ n ih =>
    unfold walk at h
    split at h
    · next t hstep =>
      obtain ⟨⟨ws, result'⟩, hwalk, heq⟩ := Option.map_eq_some_iff.mp h
      cases heq
      obtain ⟨hvisits, hrun⟩ := ih hwalk
      rw [visits_of_next hstep, run_of_next hstep, hvisits, hrun]
      exact ⟨rfl, rfl⟩
    · next t hstep =>
      cases h
      exact ⟨visits_of_finished hstep, run_of_finished hstep⟩
    · next fault t hstep =>
      cases h
      exact ⟨visits_of_stopped hstep, run_of_stopped hstep⟩

end Assembly

end Assembler6502
