/-
Runs that come to the same.

* **`SameOutcome`** — two computations both succeed with the same result, or
  both fail with errors that are alike;
* **`runPass_alike`** — passes that end alike come to the same;
* **`PassesAlike`** — the passes over two inputs come to the same;
* **`assemble_alike`** — then so do whole runs.
-/
import Assembler6502.Proofs.Assembly.Alike
import Assembler6502.Session

namespace Assembler6502

open Assembler6502.Assembly

variable {D : Diagnostic → Diagnostic → Prop}

/-- Failures with errors that are alike. -/
inductive Failure.Alike (D : Diagnostic → Diagnostic → Prop) : Failure → Failure → Prop where
  | stopped {f g : Fault} (fault : f.Alike D g) : Failure.Alike D (.stopped f) (.stopped g)
  | rejected {ds es : List Diagnostic} (errors : List.Forall₂ D ds es) :
      Failure.Alike D (.rejected ds) (.rejected es)

/-- Two computations that both succeed with the same result, or both fail with errors that are
alike.  `S` relates what they leave behind. -/
inductive SameOutcome {α σ : Type} (D : Diagnostic → Diagnostic → Prop) (S : σ → σ → Prop) :
    EStateM.Result Failure σ α → EStateM.Result Failure σ α → Prop where
  | ok (a : α) {s t : σ} (states : S s t) : SameOutcome D S (.ok a s) (.ok a t)
  | failed {f g : Failure} {s t : σ} (failures : f.Alike D g) (states : S s t) :
      SameOutcome D S (.error f s) (.error g t)

namespace Session

/-- A pass that is handed either of two images. -/
theorem abreast_initial {R : Emitter → Emitter → Prop} {e e' : Emitter} (h : R e e') (s : Session)
    (source : Source) :
    Abreast (Option.Rel R) (s.initial source (some e)) (s.initial source (some e')) :=
  ⟨⟨⟨rfl, rfl, rfl, rfl, rfl, rfl, .some h⟩, .nil⟩, rfl⟩

/-- Passes that end alike come to the same. -/
theorem runPass_alike {I : Option Emitter → Option Emitter → Prop} {s s' : Session} {pass : Pass}
    {disk disk' : Disk} {source source' : Source} {image image' : Option Emitter}
    (h : EndAlike I D (Assembly.run (s.setting pass disk) (s.initial source image))
      (Assembly.run (s'.setting pass disk') (s'.initial source' image'))) :
    SameOutcome D (Assembly.Alike I D) (s.runPass pass disk source image)
      (s'.runPass pass disk' source' image') := by
  unfold runPass conclude
  generalize Assembly.run (s.setting pass disk) (s.initial source image) = x at h
  generalize Assembly.run (s'.setting pass disk') (s'.initial source' image') = y at h
  cases h with
  | stopped fault alike => exact .failed (.stopped fault) alike
  | @ok u v alike =>
    have hlength := alike.errors.length_eq
    by_cases hu : u.errors = []
    · have hv : v.errors = [] := List.eq_nil_of_length_eq_zero (by rw [← hlength, hu]; rfl)
      simp only [hu, hv, if_true]
      exact .ok () alike
    · have hv : v.errors ≠ [] := by
        intro hv
        rw [hv] at hlength
        exact hu (List.eq_nil_of_length_eq_zero hlength)
      simp only [hu, hv, if_false]
      exact .failed (.rejected alike.errors) alike

/-! ### Runs -/

/-- Neither input can be read, for the same reason, or every pass over one comes to the same as the
pass over the other. -/
inductive PassesAlike (D : Diagnostic → Diagnostic → Prop) (disk disk' : Disk) :
    Except FileError Source → Except FileError Source → Prop where
  | error (error : FileError) : PassesAlike D disk disk' (.error error) (.error error)
  | ok {source source' : Source} (passes : ∀ (s : Session) pass image,
      SameOutcome D (Assembly.Alike Eq D) (s.runPass pass disk source image)
        (s.runPass pass disk' source' image)) :
      PassesAlike D disk disk' (.ok source) (.ok source')

section

variable {disk disk' : Disk} {input input' : Input}
  (h : PassesAlike D disk disk' (input.source disk) (input'.source disk'))

include h

theorem firstPass_alike (s : Session) :
    SameOutcome D Eq (firstPass disk input s) (firstPass disk' input' s) := by
  have hresume : ∀ {u v : State}, Assembly.Alike Eq D u v → s.reset.resume u = s.reset.resume v := by
    intro u v h
    rw [resume, resume, h.twin.scopes, h.twin.anonymous]
  unfold firstPass
  generalize input.source disk = x at h
  generalize input'.source disk' = y at h
  cases h with
  | error error => exact .failed (.stopped (.file error)) rfl
  | @ok source source' passes =>
    have hpass := passes s.reset .first none
    dsimp only
    generalize s.reset.runPass .first disk source none = x at hpass
    generalize s.reset.runPass .first disk' source' none = y at hpass
    cases hpass with
    | ok a states =>
      dsimp only
      rw [hresume states, states.twin.start, states.twin.assigned]
      exact .ok _ rfl
    | failed failures states => exact .failed failures (hresume states)

theorem secondPass_alike (start : UInt16) (job : Job) :
    SameOutcome D Eq (secondPass disk input start job) (secondPass disk' input' start job) := by
  rw [secondPass_eq, secondPass_eq]
  cases Emitter.begin start (.start job.session.options.format job.writer) with
  | error error emitter => exact .failed (.stopped (.file error)) rfl
  | ok a emitter =>
    generalize input.source disk = x at h
    generalize input'.source disk' = y at h
    cases h with
    | error error => exact .failed (.stopped (.file error)) rfl
    | @ok source source' passes =>
      have hpass := passes job.session .second (some emitter)
      dsimp only
      generalize job.session.runPass .second disk source (some emitter) = x at hpass
      generalize job.session.runPass .second disk' source' (some emitter) = y at hpass
      cases hpass with
      | ok a states =>
        dsimp only
        rw [resume, resume, states.twin.scopes, states.twin.anonymous, states.twin.image,
          states.twin.address]
        exact .ok _ rfl
      | failed failures states =>
        dsimp only
        rw [resume, resume, states.twin.scopes, states.twin.anonymous, states.twin.image]
        exact .failed failures rfl

/-- Runs over inputs whose passes come to the same come to the same. -/
theorem assemble_alike (job : Job) :
    SameOutcome D Eq (assemble disk input job) (assemble disk' input' job) := by
  have hpass := firstPass_alike h job.session
  unfold assemble
  generalize firstPass disk input job.session = x at hpass
  generalize firstPass disk' input' job.session = y at hpass
  cases hpass with
  | ok start states =>
    cases states
    exact secondPass_alike h start _
  | failed failures states =>
    cases states
    exact .failed failures rfl

end

end Session

end Assembler6502
