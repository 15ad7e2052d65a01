/-
What can go wrong in a pass.

Internal errors are there for stack programs and opcode tables that do not fit
together, and file errors for writers that are full.  Neither arises: the stack
programs come from trees, every permitted mode has an opcode, and a writer
without a bound takes everything.  So a pass goes on to the end of its main
file, and all that it notes are errors of the sources it has read.

* **`Source.Reports`** — an error of a source, at a place in it;
* **`Grammatical.reports`** — what a parser fails with;
* **`Plain.faultless`** — what a statement fails with that is carried out;
* **`step_calm`**, **`run_calm`** — a pass never stops early.
-/
import Assembler6502.Proofs.Assembly.OpenFiles
import Assembler6502.Proofs.Statement.Locations

namespace Assembler6502

/-- An error of a source: no internal one, and at a place in the source. -/
def Source.Reports (source : Source) (d : Diagnostic) : Prop :=
  d.isFatal = false ∧ ∃ position, d.location = source.location position

/-! ### Statements that cannot be read -/

namespace Parser

variable {α : Type} {r r' : Reading} {d : Diagnostic}

theorem next_reports (h : next r = .error d r') : r.source.Reports d := by
  unfold next at h
  split at h
  · cases h
  · next e position cursor hnext =>
    cases h
    exact ⟨rfl, position, rfl⟩

theorem fail_reports {error : StatementError} (hsource : error.isInternal = false) (r : Reading) :
    r.source.Reports (r.diagnostic error) :=
  ⟨hsource, r.cursor.statement, rfl⟩

/-- A parser fails with errors of the source that it reads. -/
theorem Grammatical.reports {p : Parser α} (hp : Grammatical p) (h : p r = .error d r') :
    r.source.Reports d := by
  refine hp.fails (Q := fun r d => r.source.Reports d) Reading.kept_sameSource ?_ next_reports
    fail_reports h
  intro r s d hsame hs
  rwa [← hsame]

end Parser

/-! ### Statements that cannot be carried out -/

namespace Assembly

variable {α : Type} {setting : Setting} {s t : State}

/-- The writer of the image is never full. -/
def State.Roomy (s : State) : Prop :=
  ∀ emitter, s.image = some emitter → emitter.writer.room = none

/-- An action on a state with room leaves room, notes nothing, and fails with errors of the
statement at hand only. -/
structure Faultless (a : Action α) (s : State) : Prop where
  roomy : (after a s).Roomy
  errors : (after a s).errors = s.errors
  fault : ∀ {f t}, a s = .error f t →
    ∃ error, error.isInternal = false ∧ f = .diagnostic (s.diagnostic error)

theorem Faultless.of_ok {a : Action α} {x : α} (h : a s = .ok x t) (hroomy : t.Roomy)
    (herrors : t.errors = s.errors) : Faultless a s := by
  refine ⟨?_, ?_, fun hf => ?_⟩
  · rwa [after, h]
  · rwa [after, h]
  · rw [h] at hf
    cases hf

theorem Faultless.of_error {a : Action α} {error : StatementError}
    (h : a s = .error (.diagnostic (s.diagnostic error)) t) (herror : error.isInternal = false)
    (hroomy : t.Roomy) (herrors : t.errors = s.errors) : Faultless a s := by
  refine ⟨?_, ?_, fun hf => ?_⟩
  · rwa [after, h]
  · rwa [after, h]
  · rw [h] at hf
    cases hf
    exact ⟨error, herror, rfl⟩

theorem State.diagnostic_congr (h : t.files = s.files) (error : StatementError) :
    t.diagnostic error = s.diagnostic error := by
  simp only [State.diagnostic, State.reading, Reading.diagnostic, Reading.location, h]

theorem put_of_room {emitter : Emitter} (h : emitter.writer.room = none)
    (output : Format → List UInt8) (count : Nat) :
    ∃ emitter', (do Emitter.put (output (← get).format) count : EStateM FileError Emitter Unit)
        emitter = .ok () emitter' ∧ emitter'.writer.room = none := by
  refine ⟨⟨emitter.format, ⟨emitter.writer.written ++ output emitter.format, none⟩,
    emitter.size + count⟩, ?_, rfl⟩
  show Emitter.put (output emitter.format) count emitter = _
  rw [Emitter.put, Writer.write, h]

/-- Output is written if there is room. -/
theorem emit_of_roomy (hroomy : s.Roomy) (output : Format → List UInt8) (count : Nat) :
    ∃ image, emit (do Emitter.put (output (← get).format) count) s = .ok () { s with image } ∧
      State.Roomy { s with image } := by
  unfold emit
  cases himage : s.image with
  | none =>
    have hs : s = { s with image := none } := by rw [← himage]
    exact ⟨none, congrArg (EStateM.Result.ok ()) hs, nofun⟩
  | some emitter =>
    obtain ⟨emitter', hput, hroom⟩ := put_of_room (hroomy emitter himage) output count
    refine ⟨some emitter', ?_, ?_⟩
    · dsimp only
      rw [hput]
    · rintro e ⟨⟩
      exact hroom

theorem Plain.faultless {a : Action α} (h : Plain a) (hroomy : s.Roomy) : Faultless a s := by
  induction h generalizing s with
  | pure | get => exact .of_ok rfl hroomy rfl
  | fail source => exact .of_error rfl source hroomy rfl
  | @modify f files errors image =>
    have himage : (f s).Roomy := by
      intro emitter he
      rw [image s] at he
      exact hroomy emitter he
    exact .of_ok rfl himage (errors s)
  | emit output count =>
    obtain ⟨image, hemit, himage⟩ := emit_of_roomy hroomy output count
    exact .of_ok hemit himage rfl
  | @bind α β a f first rest ihfirst ihrest =>
    obtain ⟨hfirst, herrors, hfault⟩ := ihfirst hroomy
    have hfiles := first.files s
    cases ha : a s with
    | ok x u =>
      rw [after, ha] at hfirst herrors hfiles
      obtain ⟨hrest, herrors', hfault'⟩ := ihrest x hfirst
      refine ⟨?_, ?_, fun {g v} hg => ?_⟩
      · rw [after_bind ha]
        exact hrest
      · rw [after_bind ha]
        exact herrors'.trans herrors
      · change EStateM.bind a f s = _ at hg
        rw [EStateM.bind, ha] at hg
        obtain ⟨error, hsource, rfl⟩ := hfault' hg
        refine ⟨error, hsource, ?_⟩
        -- nothing was read in between, so the place is the same
        rw [State.diagnostic_congr hfiles]
    | error g u =>
      rw [after, ha] at hfirst herrors
      obtain ⟨error, hsource, rfl⟩ := hfault ha
      have hbind : (a >>= f) s = .error (.diagnostic (s.diagnostic error)) u := by
        show EStateM.bind a f s = _
        rw [EStateM.bind, ha]
      exact .of_error hbind hsource hfirst herrors

/-- An inclusion or another statement. -/
theorem execute_faultless (setting : Setting) (statement : Statement) (hroomy : s.Roomy) :
    Faultless (execute setting statement) s := by
  by_cases hinclude : ∃ name, statement = .includeFile name
  · obtain ⟨name, rfl⟩ := hinclude
    rcases executeInclude_cases setting.disk name s with ⟨_, source, room, -, hok⟩ | ⟨e, he, herror⟩
    · exact .of_ok hok hroomy rfl
    · exact .of_error herror he hroomy rfl
  · exact (Plain.execute setting fun name hname => hinclude ⟨name, hname⟩).faultless hroomy

/-! ### Passes -/

/-- Nothing was noted but errors of known sources, and there is room for the image. -/
structure Calm (known : Source → Prop) (s : State) : Prop where
  errors : ∀ d ∈ s.errors, ∃ source, known source ∧ source.Reports d
  roomy : s.Roomy

/-- The pass does not stop here. -/
def Step.Calm (known : Source → Prop) : Step → Prop
  | next t | finished t => Assembly.Calm known t
  | stopped _ _ => False

variable {known : Source → Prop}

theorem Calm.note (h : Calm known s) {source : Source} (hsource : known source) {d : Diagnostic}
    (hd : source.Reports d) : Calm known (s.note d) where
  errors e he := by
    rcases List.mem_append.mp he with he | he
    · exact h.errors e he
    · cases List.mem_singleton.mp he
      exact ⟨source, hsource, hd⟩
  roomy := h.roomy

theorem State.diagnostic_reports (s : State) {error : StatementError}
    (h : error.isInternal = false) : s.files.current.source.Reports (s.diagnostic error) :=
  Parser.fail_reports h s.reading

theorem endFile_calm (hsource : known s.files.current.source) (h : Calm known s) :
    (endFile setting s).Calm known := by
  unfold endFile
  split
  · exact ⟨h.errors, h.roomy⟩
  · unfold State.finish
    split
    · exact h.note hsource (s.diagnostic_reports rfl)
    · exact h

theorem carryOut_calm (hsource : known s.files.current.source) (h : Calm known s)
    (statement : Statement) : (carryOut setting statement s).Calm known := by
  obtain ⟨hroomy, herrors, hfault⟩ := execute_faultless setting statement h.roomy
  unfold carryOut
  cases hexecute : execute setting statement s with
  | ok x t =>
    rw [after, hexecute] at hroomy herrors
    exact ⟨herrors ▸ h.errors, hroomy⟩
  | error fault t =>
    rw [after, hexecute] at hroomy herrors
    obtain ⟨error, herror, rfl⟩ := hfault hexecute
    have hreports := s.diagnostic_reports herror
    have hcalm : Calm known t := ⟨herrors ▸ h.errors, hroomy⟩
    dsimp only
    rw [if_neg (by simp [hreports.1])]
    exact hcalm.note hsource hreports

/-- No step stops the pass. -/
theorem step_calm (hsource : known s.files.current.source) (h : Calm known s) :
    (step setting s).Calm known := by
  have hresume : ∀ r : Reading, Calm known (s.resume r) := fun _ => ⟨h.errors, h.roomy⟩
  have hread : ∀ {r : Reading}, (Statement.parse (s.context setting)).after s.reading = r →
      known r.source := fun hr => (reads_on hr).1 ▸ hsource
  unfold step
  split
  · -- the end of a file
    next r hparse => exact endFile_calm (hread (Parser.after_of_ok hparse)) (hresume r)
  · -- a statement that is skipped
    next r hparse =>
    have herror : StatementError.undefinedStatement.isInternal = false := rfl
    have hnote := (hresume r).note (hread (Parser.after_of_ok hparse))
      (State.diagnostic_reports (s.resume r) herror)
    exact ⟨hnote.errors, hnote.roomy⟩
  · -- a statement that is carried out
    next statement r _ _ hparse =>
    exact carryOut_calm (hread (Parser.after_of_ok hparse)) (hresume r) statement
  · -- a statement that cannot be read
    next d r hparse =>
    have hreports : s.files.current.source.Reports d := Statement.parse_grammatical.reports hparse
    rw [if_neg (by simp [hreports.1])]
    have hnote := (hresume r).note hsource hreports
    exact ⟨hnote.errors, hnote.roomy⟩

/-- A pass that starts in known sources, and all of whose inclusions are known, reaches its end. -/
theorem run_calm (hknown : ∀ path source, openSource setting.disk path = .ok source → known source)
    (hsources : ∀ reader ∈ s.files.readers, known reader.source) (h : Calm known s) :
    ∃ t, run setting s = .ok () t ∧ Calm known t := by
  -- every open file is known, so every step leads on, and to the end
  have hinvariant : ReaderInvariant setting.disk fun reader => known reader.source :=
    ⟨fun h _ => h, fun h => hknown _ _ h⟩
  fun_induction run setting s with
  | case1 s t hstep ih =>
    have hcalm : (step setting s).Calm known := step_calm (hsources _ (List.mem_cons_self ..)) h
    rw [hstep] at hcalm
    exact ih ((step_moves hstep).all hinvariant hsources) hcalm
  | case2 s t hstep =>
    have hcalm : (step setting s).Calm known := step_calm (hsources _ (List.mem_cons_self ..)) h
    rw [hstep] at hcalm
    exact ⟨t, rfl, hcalm⟩
  | case3 s fault t hstep =>
    have hcalm : (step setting s).Calm known := step_calm (hsources _ (List.mem_cons_self ..)) h
    rw [hstep] at hcalm
    exact hcalm.elim

end Assembly

end Assembler6502
