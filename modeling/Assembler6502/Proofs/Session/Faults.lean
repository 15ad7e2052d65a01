/-
Every text is assembled or rejected.

Whatever bytes a text holds, whatever files it includes and whatever the options
are, a run with a writer that is never full ends in one of two ways.  Either it
has an image, or it has a list of errors that are not internal, each of them at
a place in the text or in a file.

* **`runPass_cases`** — a pass ends without errors, or with the errors that it
  noted;
* **`assemble_faultless`** — so does a run.
-/
import Assembler6502.Proofs.Assembly.Faults
import Assembler6502.Proofs.Session.Passes

namespace Assembler6502

open Assembler6502.Assembly

/-- The sources that a run can come to: the one that it starts with, and those in files. -/
def Disk.Provides (disk : Disk) (main source : Source) : Prop :=
  source = main ∨ ∃ path, openSource disk path = .ok source

namespace Session

/-- There are errors, and all of them are errors of sources that a run can come to. -/
def Rejects (disk : Disk) (main : Source) (ds : List Diagnostic) : Prop :=
  ds ≠ [] ∧ ∀ d ∈ ds, ∃ source, disk.Provides main source ∧ source.Reports d

/-- A pass ends without errors, or with errors of its sources. -/
theorem runPass_cases (s : Session) (pass : Pass) (disk : Disk) (main : Source)
    (image : Option Emitter)
    (hroom : ∀ emitter, image = some emitter → emitter.writer.room = none) :
    (∃ t, s.runPass pass disk main image = .ok () t) ∨
      ∃ t, s.runPass pass disk main image = .error (.rejected t.errors) t ∧
        Rejects disk main t.errors := by
  have hstart : ∀ reader ∈ (s.initial main image).files.readers,
      disk.Provides main reader.source := by
    intro reader hreader
    cases List.mem_singleton.mp hreader
    exact .inl rfl
  have hknown : ∀ path source, openSource (s.setting pass disk).disk path = .ok source →
      disk.Provides main source := fun path source h => .inr ⟨path, h⟩
  have hinitial : Calm (disk.Provides main) (s.initial main image) :=
    ⟨fun _ hd => absurd hd List.not_mem_nil, hroom⟩
  obtain ⟨t, hrun, hcalm⟩ := run_calm hknown hstart hinitial
  rw [runPass, hrun]
  by_cases herrors : t.errors = []
  · exact .inl ⟨t, if_pos herrors⟩
  · exact .inr ⟨t, if_neg herrors, herrors, hcalm.errors⟩

theorem begin_of_room {emitter : Emitter} (h : emitter.writer.room = none) (start : UInt16) :
    ∃ emitter', Emitter.begin start emitter = .ok () emitter' ∧ emitter'.writer.room = none :=
  put_of_room h (fun f => f.header start) 0

theorem secondPass_cases (disk : Disk) (name : String) (bytes : List UInt8) (start : UInt16)
    (job : Job) (hroom : job.writer.room = none) :
    (∃ report done, secondPass disk (.text name bytes) start job = .ok report done) ∨
      ∃ ds done, secondPass disk (.text name bytes) start job = .error (.rejected ds) done ∧
        Rejects disk ⟨name, none, bytes⟩ ds := by
  obtain ⟨emitter, hbegin, hemitter⟩ :
      ∃ emitter, Emitter.begin start (.start job.session.options.format job.writer) =
        .ok () emitter ∧ emitter.writer.room = none := begin_of_room hroom start
  rw [secondPass_eq]
  simp only [hbegin, Input.source]
  rcases runPass_cases job.session .second disk ⟨name, none, bytes⟩ (some emitter)
    (by rintro _ ⟨⟩; exact hemitter) with ⟨t, ht⟩ | ⟨t, ht, hrejects⟩
  · rw [ht]
    exact .inl ⟨_, _, rfl⟩
  · rw [ht]
    exact .inr ⟨t.errors, _, rfl, hrejects⟩

/-- A run over a text ends with an image, or with errors of its sources. -/
theorem assemble_cases (disk : Disk) (name : String) (bytes : List UInt8) (job : Job)
    (hroom : job.writer.room = none) :
    (∃ report done, assemble disk (.text name bytes) job = .ok report done) ∨
      ∃ ds done, assemble disk (.text name bytes) job = .error (.rejected ds) done ∧
        Rejects disk ⟨name, none, bytes⟩ ds := by
  unfold assemble firstPass
  simp only [Input.source]
  rcases runPass_cases job.session.reset .first disk ⟨name, none, bytes⟩ none nofun with
    ⟨t, ht⟩ | ⟨t, ht, hrejects⟩
  · rw [ht]
    exact secondPass_cases disk name bytes _ _ hroom
  · rw [ht]
    exact .inr ⟨t.errors, _, rfl, hrejects⟩

/-- If the first pass notes errors, there is no image. -/
theorem assemble_ne_ok_of_noted {disk : Disk} {name : String} {bytes : List UInt8} {job : Job}
    {n : Nat} {causes : List Cause} {report : Report} {done : Job}
    (h : (walk (job.session.reset.setting .first disk) n
      (job.session.reset.initial ⟨name, none, bytes⟩ none)).map (fun x => noted x.2) = some causes)
    (hne : causes ≠ []) : assemble disk (.text name bytes) job ≠ .ok report done := by
  obtain ⟨⟨vs, result⟩, hwalk, rfl⟩ := Option.map_eq_some_iff.mp h
  obtain ⟨-, hrun⟩ := walk_eq_some hwalk
  unfold assemble firstPass runPass
  simp only [Input.source, hrun, conclude]
  cases result with
  | ok x t =>
    have herrors : t.errors ≠ [] := by
      intro herrors
      simp [noted, herrors] at hne
    simp [herrors]
  | error fault t => simp

/-- A text is assembled, or it is rejected with errors that are not internal, each of them at a
place in the text or in a file.  The items of an expression leave one number on the stack or fail
with an error of the source, and every mode that a mnemonic takes has an opcode. -/
theorem assemble_faultless (disk : Disk) (name : String) (bytes : List UInt8) (job : Job)
    (hroom : job.writer.room = none) :
    ((∃ report done, assemble disk (.text name bytes) job = .ok report done) ∨
      ∃ ds done, assemble disk (.text name bytes) job = .error (.rejected ds) done ∧ ds ≠ [] ∧
        ∀ d ∈ ds, d.isFatal = false ∧ ∃ source position,
          disk.Provides ⟨name, none, bytes⟩ source ∧ d.location = source.location position) ∧
    (∀ (e : Expr) (pass : Pass) (ρ : Relocation),
      (∃ number ρ', e.items.foldlM (StackState.step pass) ⟨[], ρ⟩ = .ok ⟨[number], ρ'⟩) ∨
        ∃ error, e.items.foldlM (StackState.step pass) ⟨[], ρ⟩ = .error error ∧
          error.isInternal = false) ∧
    ∀ (m : Mnemonic) (mode : Mode), m.modes.contains mode = true →
      ∃ opcode, m.opcode mode = some opcode := by
  refine ⟨?_, fun e pass ρ => e.foldlM_items_cases pass ρ, fun m mode h => ?_⟩
  · refine (assemble_cases disk name bytes job hroom).imp_right ?_
    rintro ⟨ds, done, hrun, hne, hds⟩
    refine ⟨ds, done, hrun, hne, fun d hd => ?_⟩
    obtain ⟨source, hprovides, hfatal, position, hlocation⟩ := hds d hd
    exact ⟨hfatal, source, position, hprovides, hlocation⟩
  · exact Option.isSome_iff_exists.mp ((m.contains_modes_iff mode).mp h)

/-- A text with an error in a token, one in an expression and one in an instruction. -/
def soup : List UInt8 := Byte.ofChars " lda #$\n .word 1+\n sta #1\n".toList

theorem assemble_faultless_soup :
    ∃ ds done, assemble (.empty []) (.text "main" soup) Job.plain = .error (.rejected ds) done ∧
      ds ≠ [] ∧ ∀ d ∈ ds, d.isFatal = false := by
  have hnoted : (walk (Job.plain.session.reset.setting .first (.empty [])) 4
      (Job.plain.session.reset.initial ⟨"main", none, soup⟩ none)).map (fun x => noted x.2) =
        some [.scan (.missingDigits .hexadecimal), .statement (.expected "expression"),
          .statement .illegalMode] := by
    decide +kernel
  rcases (assemble_faultless (.empty []) "main" soup Job.plain rfl).1 with
    ⟨report, done, hok⟩ | ⟨ds, done, herror, hne, hds⟩
  · exact absurd hok (assemble_ne_ok_of_noted hnoted nofun)
  · exact ⟨ds, done, herror, hne, fun d hd => (hds d hd).1⟩

end Session

end Assembler6502
