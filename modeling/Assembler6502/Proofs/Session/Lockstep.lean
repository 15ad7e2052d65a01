/-
The two passes walk in step.

Both passes of a run read the same files.  The second one knows more names, so
a token may stand for something else, but the tokens are the same and so are
the statements.  An operand that is read differently can change the width of an
instruction or fail; it cannot change which statement comes next.

* **`together_of_clean`** — two clean runs from the same place make one run of
  pairs of steps, which is what all comparisons of the passes are proved by;
* **`passes_in_step`** — the two passes of a run that succeeds carry out the
  same statements at the same places, and no scope is open at the end.

Design notes.  `Together` keeps what both runs know at a step: that the states
are abreast, how the two statements were read and what they did.  A pair of
runs that parted would have to read statements of two kinds from one place.
-/
import Mathlib.Data.List.Forall2
import Assembler6502.Proofs.Session.Passes
import Assembler6502.Proofs.Statement.Agreement

namespace Assembler6502

open Assembler6502.Parser

/-! ### Statements that are alike -/

namespace Statement

variable {a b : Statement}

theorem Alike.pathBehind (h : a.Alike b) (path : List String) :
    a.pathBehind path = b.pathBehind path := by
  cases h.kinds <;> rfl

theorem Alike.eq_endOfInput_iff (h : a.Alike b) : a = .endOfInput ↔ b = .endOfInput := by
  cases h.kinds with
  | endOfInput => exact Iff.rfl
  | _ => exact ⟨nofun, nofun⟩

theorem Alike.eq_includeFile_iff (h : a.Alike b) (name : String) :
    a = .includeFile name ↔ b = .includeFile name := by
  cases h.kinds with
  | includeFile => exact Iff.rfl
  | _ => exact ⟨nofun, nofun⟩

end Statement

namespace Assembly

/-! ### States abreast -/

/-- Two states at the same place of the same open files, with the same scopes open. -/
structure State.Abreast (s t : State) : Prop where
  files : s.files = t.files
  path : s.scopes.path = t.scopes.path

variable {a b : Setting} {s t u v s' t' : State} {r r' : Reading} {vs ws : List Visit}
  {statement statement' : Statement}

namespace State.Abreast

theorem reading (h : s.Abreast t) : s.reading.Abreast t.reading where
  source := by rw [State.reading, State.reading, h.files]
  cursor := by rw [State.reading, State.reading, h.files]
  path := h.path

theorem resume (h : s.Abreast t) (hr : r.Abreast r') : (s.resume r).Abreast (t.resume r') where
  files := by
    show (⟨⟨r.source, r.cursor⟩, s.files.outer, _⟩ : OpenFiles) = ⟨⟨r'.source, r'.cursor⟩, _, _⟩
    simp only [hr.source, hr.cursor, h.files]
  path := hr.path

end State.Abreast

/-- Reading on does not change which files are around the current one. -/
theorem State.pop?_resume (s : State) (r : Reading) :
    (s.resume r).files.pop? = s.files.pop? :=
  rfl

/-- Statements that are alike lead from states abreast to states abreast. -/
theorem Effect.abreast (halike : statement.Alike statement') (hdisk : a.disk = b.disk)
    (h : s.Abreast t) (hs : Effect a statement s u) (ht : Effect b statement' t v) :
    u.Abreast v where
  files := by
    rcases hs.files with ⟨name, path, source, room, rfl, hfound, hopened, hu⟩ | ⟨hno, hu⟩
    · rcases ht.files with ⟨name', path', source', room', rfl, hfound', hopened', hv⟩ | ⟨hno', -⟩
      · -- the name is the same, and so is the file that it leads to
        cases (halike.eq_includeFile_iff name).mp rfl
        rw [← hdisk, ← h.files, hfound, Option.some.injEq] at hfound'
        rw [← hdisk, ← hfound', hopened, Except.ok.injEq] at hopened'
        rw [hu, hv]
        simp only [OpenFiles.push, h.files, hopened']
      · exact absurd ((halike.eq_includeFile_iff name).mp rfl) (hno' name)
    · rcases ht.files with ⟨name', -, -, -, rfl, -⟩ | ⟨-, hv⟩
      · exact absurd ((halike.eq_includeFile_iff name').mpr rfl) (hno name')
      · rw [hu, hv, h.files]
  path := by rw [hs.path, ht.path, halike.pathBehind, h.path]

/-! ### Two runs as one -/

/-- Two clean runs, each step of the one beside a step of the other. -/
inductive Together (a b : Setting) :
    State → State → List Visit → List Visit → State → State → Prop where
  /-- The main file ends. -/
  | finish {s t : State} {r r' : Reading} (abreast : s.Abreast t)
      (parsed : Statement.parse (s.context a) s.reading = .ok .endOfInput r)
      (parsed' : Statement.parse (t.context b) t.reading = .ok .endOfInput r')
      (last : s.files.pop? = none) (closed : a.pass = .first → r.scopes.depth = 0) :
      Together a b s t [] [] (s.resume r) (t.resume r')
  /-- An included file ends. -/
  | close {s t s' t' : State} {r r' : Reading} {files files' : OpenFiles} {vs ws : List Visit}
      (abreast : s.Abreast t)
      (parsed : Statement.parse (s.context a) s.reading = .ok .endOfInput r)
      (parsed' : Statement.parse (t.context b) t.reading = .ok .endOfInput r')
      (popped : (s.resume r).files.pop? = some files)
      (rest : Together a b { s.resume r with files } { t.resume r' with files := files' } vs ws
        s' t') :
      Together a b s t vs ws s' t'
  /-- A statement is read and carried out in both runs. -/
  | carry {s t u v s' t' : State} {statement statement' : Statement} {r r' : Reading}
      {vs ws : List Visit} (abreast : s.Abreast t)
      (parsed : Statement.parse (s.context a) s.reading = .ok statement r)
      (parsed' : Statement.parse (t.context b) t.reading = .ok statement' r')
      (alike : statement.Alike statement')
      (effect : Effect a statement (s.resume r) u) (effect' : Effect b statement' (t.resume r') v)
      (rest : Together a b u v vs ws s' t') :
      Together a b s t (⟨s, statement⟩ :: vs) (⟨t, statement'⟩ :: ws) s' t'

/-- The end of the input is read, not carried out. -/
theorem Effect.ne_endOfInput (h : Effect a statement s t) : statement ≠ .endOfInput := by
  rintro rfl
  cases h

/-- Both runs take the same kind of step, because they read the same statement. -/
theorem together_of_clean (hdisk : a.disk = b.disk) (h : Clean a s vs s') (h' : Clean b t ws t')
    (habreast : s.Abreast t) : Together a b s t vs ws s' t' := by
  induction h generalizing t ws with
  | @finish s r hparsed hlast hclosed =>
    cases h' with
    | finish hparsed' => exact .finish habreast hparsed hparsed' hlast hclosed
    | @close _ _ r' files' _ _ hpopped' =>
      rw [State.pop?_resume, ← habreast.files, hlast] at hpopped'
      cases hpopped'
    | carry hparsed' heffect' =>
      obtain ⟨halike, -⟩ := Statement.parse_agree habreast.reading hparsed hparsed'
      exact absurd (halike.eq_endOfInput_iff.mp rfl) heffect'.ne_endOfInput
  | @close s s' r files vs hparsed hpopped hrest ih =>
    cases h' with
    | finish hparsed' hlast' =>
      rw [State.pop?_resume, habreast.files, hlast'] at hpopped
      cases hpopped
    | @close _ _ r' files' _ hparsed' hpopped' hrest' =>
      obtain ⟨-, hr⟩ := Statement.parse_agree habreast.reading hparsed hparsed'
      have hfiles : files = files' := by
        rw [(habreast.resume hr).files, hpopped', Option.some.injEq] at hpopped
        exact hpopped.symm
      exact .close habreast hparsed hparsed' hpopped (ih hrest' ⟨hfiles, hr.path⟩)
    | carry hparsed' heffect' =>
      obtain ⟨halike, -⟩ := Statement.parse_agree habreast.reading hparsed hparsed'
      exact absurd (halike.eq_endOfInput_iff.mp rfl) heffect'.ne_endOfInput
  | @carry s s' u statement r vs hparsed heffect hrest ih =>
    cases h' with
    | finish hparsed' =>
      obtain ⟨halike, -⟩ := Statement.parse_agree habreast.reading hparsed hparsed'
      exact absurd (halike.eq_endOfInput_iff.mpr rfl) heffect.ne_endOfInput
    | close hparsed' =>
      obtain ⟨halike, -⟩ := Statement.parse_agree habreast.reading hparsed hparsed'
      exact absurd (halike.eq_endOfInput_iff.mpr rfl) heffect.ne_endOfInput
    | carry hparsed' heffect' hrest' =>
      obtain ⟨halike, hr⟩ := Statement.parse_agree habreast.reading hparsed hparsed'
      exact .carry habreast hparsed hparsed' halike heffect heffect'
        (ih hrest' (heffect.abreast halike hdisk (habreast.resume hr) heffect'))

/-! ### Statements in step -/

/-- Two visits of the same statement: in the same files at the same place, in the same scope. -/
structure Visit.InStep (v w : Visit) : Prop where
  files : v.before.files = w.before.files
  path : v.before.scopes.path = w.before.scopes.path
  statement : v.statement.Alike w.statement

theorem Together.inStep (h : Together a b s t vs ws s' t') : List.Forall₂ Visit.InStep vs ws := by
  induction h with
  | finish => exact .nil
  | close _ _ _ _ _ ih => exact ih
  | carry abreast _ _ alike _ _ _ ih => exact .cons ⟨abreast.files, abreast.path, alike⟩ ih

theorem Together.depth (h : Together a b s t vs ws s' t') (hpass : a.pass = .first) :
    t'.scopes.depth = 0 := by
  induction h with
  | @finish s t r r' abreast parsed parsed' _ closed =>
    obtain ⟨-, hr⟩ := Statement.parse_agree abreast.reading parsed parsed'
    show r'.scopes.path.length = 0
    rw [← hr.path]
    exact closed hpass
  | close _ _ _ _ _ ih => exact ih
  | carry _ _ _ _ _ _ _ ih => exact ih

/-- The first of the two runs. -/
theorem Together.first (h : Together a b s t vs ws s' t') : Clean a s vs s' := by
  induction h with
  | finish _ parsed _ last closed => exact .finish parsed last closed
  | close _ parsed _ popped _ ih => exact .close parsed popped ih
  | carry _ parsed _ _ effect _ _ ih => exact .carry parsed effect ih

end Assembly

open Assembler6502.Assembly

namespace Session

variable {disk : Disk} {input : Input} {job done : Job} {report : Report}

/-- Both passes start at the beginning of the same source with no scope open. -/
theorem Passes.together (p : Passes disk input job report done) :
    Together (job.session.setting .first disk) (job.session.setting .second disk)
      (job.session.reset.initial p.source none)
      ((job.session.between p.middle).initial p.source (some p.emitter))
      (firstVisits disk input job.session) (secondVisits disk input job) p.middle p.last :=
  together_of_clean rfl p.first p.second ⟨rfl, rfl⟩

/-- If a run succeeds, its passes carry out the same statements in the same order: the `k`-th
statements stand at the same place of the same files, in the same scope, and are alike.  At the end
no scope is open. -/
theorem passes_in_step (h : assemble disk input job = .ok report done) :
    List.Forall₂ Visit.InStep (firstVisits disk input job.session) (secondVisits disk input job) ∧
      done.session.scopes.depth = 0 := by
  obtain ⟨p⟩ := passes_of_assemble h
  refine ⟨p.together.inStep, ?_⟩
  rw [p.scopes_eq]
  exact p.together.depth rfl

/-- A scope around a file to include. -/
def nestedInput : Input :=
  .text "main" (Byte.ofChars ".scope p\n.include \"part\"\n.endscope\n".toList)

/-- The file to include, with an instruction that is shorter in the first pass. -/
def nestedDisk : Disk :=
  (Disk.empty []).addFile "part" (Byte.ofChars " lda e-$f02\ne: nop\n".toList)

theorem passes_in_step_nested :
    ∃ report done, assemble nestedDisk nestedInput .plain = .ok report done ∧
      (firstVisits nestedDisk nestedInput Job.plain.session).map (·.before.files.outer.length) =
        [0, 0, 1, 1, 1, 0] ∧
      List.Forall₂ Visit.InStep (firstVisits nestedDisk nestedInput Job.plain.session)
        (secondVisits nestedDisk nestedInput .plain) ∧ done.session.scopes.depth = 0 := by
  obtain ⟨report, done, hrun, hfiles⟩ :=
    exists_of_trace (n := 12) (f := fun x => x.1.map (·.before.files.outer.length))
      (show (trace 12 nestedDisk nestedInput .plain).map _ = some [0, 0, 1, 1, 1, 0] by
        decide +kernel)
  exact ⟨report, done, hrun, hfiles, passes_in_step hrun⟩

end Session

end Assembler6502
