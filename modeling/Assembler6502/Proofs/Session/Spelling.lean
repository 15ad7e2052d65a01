/-
Line ends and the case of letters make no difference.

A text is read and assembled like any other spelling of it.  The tokens and the
errors are the same at the same lines and columns.  Runs over both give the same
report, image and names, or they fail with the same errors, and only the lines
that the errors quote are as they were spelled.

* **`Input.Alike`** — one input in two spellings;
* **`assemble_respelled`** — runs over it come to the same;
* **`spelling_irrelevant`** — a text with other line ends and letters in other
  case.
-/
import Assembler6502.Proofs.Assembly.Spelling
import Assembler6502.Proofs.Session.Outcome
import Assembler6502.Proofs.Session.Passes

namespace Assembler6502

open Assembler6502.Assembly

/-- One input in two spellings. -/
inductive Input.Alike : Input → Input → Prop where
  | text (name : String) {bytes bytes' : List UInt8}
      (same : Byte.canonical .code bytes = Byte.canonical .code bytes') :
      Input.Alike (.text name bytes) (.text name bytes')
  | file (path : String) : Input.Alike (.file path) (.file path)

namespace Session

variable {disk disk' : Disk} (hdisk : disk.Alike disk')

include hdisk

theorem opened_of_alike {input input' : Input} (h : input.Alike input') :
    Opened (input.source disk) (input'.source disk') := by
  cases h with
  | text name same => exact .ok ⟨rfl, rfl, same⟩
  | file path => exact openSource_alike hdisk path

theorem runPass_respelled {source source' : Source} (h : source.Alike source') (s : Session)
    (pass : Pass) (image : Option Emitter) :
    SameOutcome Diagnostic.SameButText (Assembly.Alike Eq Diagnostic.SameButText)
      (s.runPass pass disk source image) (s.runPass pass disk' source' image) :=
  runPass_alike (run_respelled ⟨rfl, rfl, hdisk⟩
    ⟨⟨⟨rfl, rfl, rfl, rfl, rfl, rfl, rfl⟩, .nil⟩, .start h, .nil⟩)

/-- Runs over one input in two spellings come to the same. -/
theorem assemble_respelled {input input' : Input} (h : input.Alike input') (job : Job) :
    SameOutcome Diagnostic.SameButText Eq (assemble disk input job) (assemble disk' input' job) := by
  have hopened := opened_of_alike hdisk h
  refine assemble_alike ?_ job
  generalize input.source disk = x at hopened
  generalize input'.source disk' = y at hopened
  cases hopened with
  | ok alike => exact .ok (runPass_respelled hdisk alike)
  | error error => exact .error error

omit hdisk

/-- A text with line feeds is read and assembled like the text with another end on each line and
with letters in other case, except between quotes: from the same names the tokens and errors are the
same, and a run over the text, or over a file in which it stands, comes to the same. -/
theorem spelling_irrelevant (s t ending : List UInt8) (hcase : Byte.Recased s t)
    (hending : ending ∈ Byte.lineEnds) :
    (∀ name path scopes k, Parser.tokens k (.start ⟨name, path, s⟩ scopes) =
      Parser.tokens k (.start ⟨name, path, Byte.relined ending t⟩ scopes)) ∧
    (∀ disk name job, SameOutcome Diagnostic.SameButText Eq (assemble disk (.text name s) job)
      (assemble disk (.text name (Byte.relined ending t)) job)) ∧
    ∀ (disk : Disk) place path job, SameOutcome Diagnostic.SameButText Eq
      (assemble (disk.write place s) (.file path) job)
      (assemble (disk.write place (Byte.relined ending t)) (.file path) job) := by
  obtain ⟨-, hreturn, hsame⟩ := hcase
  have hspelling : Byte.canonical .code s = Byte.canonical .code (Byte.relined ending t) := by
    rw [Byte.canonical_relined hending .code hreturn]
    exact hsame
  refine ⟨?_, ?_, ?_⟩
  · intro name path scopes k
    have hsource : Source.Alike ⟨name, path, s⟩ ⟨name, path, Byte.relined ending t⟩ :=
      ⟨rfl, rfl, hspelling⟩
    exact Parser.tokens_alike k ⟨hsource, hsource.ofBytes, rfl⟩
  · intro disk name job
    exact assemble_respelled (.refl disk) (.text name hspelling) job
  · intro disk place path job
    exact assemble_respelled (disk.alike_write place hspelling) (.file path) job

/-- A text with a comment, a quote in it, and quoted letters. -/
def greeting : List UInt8 :=
  Byte.ofChars "msg: .byte \"Hi\", $1f ; a \"note\n jmp MSG\n".toList

def loudGreeting : List UInt8 :=
  Byte.ofChars "MSG: .BYTE \"Hi\", $1F ; A \"NOTE\n JMP msg\n".toList

theorem spelling_irrelevant_greeting :
    Byte.Recased greeting loudGreeting ∧ [0x0d, 0x0a] ∈ Byte.lineEnds ∧
    ∃ report done, assemble (.empty []) (.text "main" greeting) Job.plain = .ok report done ∧
      assemble (.empty []) (.text "main" (Byte.relined [0x0d, 0x0a] loudGreeting)) Job.plain =
        .ok report done ∧
      done.writer.written = [0x48, 0x69, 0x1f, 0x4c, 0x00, 0x10] := by
  have hcase : Byte.Recased greeting loudGreeting := by decide +kernel
  have hending : [0x0d, 0x0a] ∈ Byte.lineEnds := by decide
  obtain ⟨report, done, hrun, hwritten⟩ :=
    exists_of_trace (n := 10) (f := fun (_, _, _, done) => done.writer.written)
      (show (trace 10 (.empty []) (.text "main" greeting) Job.plain).map _ =
        some ([0x48, 0x69, 0x1f, 0x4c, 0x00, 0x10] : List UInt8) by decide +kernel)
  refine ⟨hcase, hending, report, done, hrun, ?_, hwritten⟩
  have hsame := (spelling_irrelevant greeting loudGreeting [0x0d, 0x0a] hcase hending).2.1
    (.empty []) "main" Job.plain
  rw [hrun] at hsame
  generalize assemble (.empty []) (.text "main" (Byte.relined [0x0d, 0x0a] loudGreeting))
    Job.plain = x at hsame ⊢
  cases hsame with
  | ok _ states => rw [states]

end Session

end Assembler6502
