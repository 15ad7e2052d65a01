/-
The formats of an image agree.

The format of an image has no part in what a run does.  Runs that differ in the
format only carry out the same statements, and they succeed with the same report
and the same names or fail with the same errors.  So what they write belongs to
the same statements: the file with a load address holds the bytes alone behind
it, and the bytes can be rebuilt from the trace.

* **`Emitter.Beside`** — two emitters that have counted the same bytes;
* **`run_beside`** — passes in two formats end alike, over the same visits;
* **`secondPass_formats`** — the second pass in two formats;
* **`formats_agree`** — runs in all formats.
-/
import Assembler6502.Proofs.Assembly.Faults
import Assembler6502.Proofs.Session.Outcome
import Assembler6502.Proofs.Session.Output
import Assembler6502.Proofs.Session.StartAddress

namespace Assembler6502

/-- Two emitters that are never full and have counted the same bytes. -/
structure Emitter.Beside (e e' : Emitter) : Prop where
  room : e.writer.room = none
  room' : e'.writer.room = none
  size : e.size = e'.size

theorem Emitter.put_of_room {e : Emitter} (h : e.writer.room = none) (output : List UInt8)
    (count : Nat) :
    put output count e =
      .ok () ⟨e.format, ⟨e.writer.written ++ output, none⟩, e.size + count⟩ := by
  rw [put, Writer.write, h]

namespace Assembly

variable {setting : Setting} {s t : State}

/-! ### Passes side by side -/

theorem emitsAlike_beside : EmitsAlike (Option.Rel Emitter.Beside) := by
  intro s t h output count
  have himage := h.image
  unfold emit
  generalize s.image = x at himage
  generalize t.image = y at himage
  cases himage with
  | none => exact .ok h (.refl s) (.refl t)
  | @some e e' beside =>
    have hput : (do Emitter.put (output (← get).format) count : EStateM FileError Emitter Unit) e =
        _ := Emitter.put_of_room beside.room (output e.format) count
    have hput' :
        (do Emitter.put (output (← get).format) count : EStateM FileError Emitter Unit) e' =
          _ := Emitter.put_of_room beside.room' (output e'.format) count
    dsimp only
    rw [hput, hput']
    exact .ok ⟨h.scopes, h.anonymous, h.address, h.start, h.placed, h.assigned,
      .some ⟨rfl, rfl, congrArg (· + count) beside.size⟩⟩ ⟨rfl, rfl⟩ ⟨rfl, rfl⟩

theorem step_beside (h : Abreast (Option.Rel Emitter.Beside) s t) :
    StepAlike (Option.Rel Emitter.Beside) Eq Eq (step setting s) (step setting t) :=
  step_abreast h fun _ _ _ hinclude =>
    execute_paired emitsAlike_beside (h.alike.resume rfl).twin setting hinclude

/-- Two visits of the same statement at the same address. -/
structure Visit.Same (v w : Visit) : Prop where
  statement : v.statement = w.statement
  address : v.before.address = w.before.address
  placed : v.before.placed = w.before.placed

theorem visit?_beside (h : Abreast (Option.Rel Emitter.Beside) s t) :
    Option.Rel Visit.Same (visit? setting s) (visit? setting t) := by
  unfold visit?
  rw [h.parse setting]
  split
  · exact .none
  · exact .none
  · exact .none
  · exact .some ⟨rfl, h.alike.twin.address, h.alike.twin.placed⟩

theorem visits_append {x y : Option Visit} {vs ws : List Visit} (h : Option.Rel Visit.Same x y)
    (hrest : List.Forall₂ Visit.Same vs ws) :
    List.Forall₂ Visit.Same (x.toList ++ vs) (y.toList ++ ws) := by
  cases h with
  | none => exact hrest
  | some same => exact .cons same hrest

/-- Passes in two formats end alike, and they carry out the same statements. -/
theorem run_beside (setting : Setting) (h : Abreast (Option.Rel Emitter.Beside) s t) :
    EndAlike (Option.Rel Emitter.Beside) Eq (run setting s) (run setting t) ∧
      List.Forall₂ Visit.Same (visits setting s) (visits setting t) := by
  fun_induction run setting s generalizing t with
  | case1 s u hstep ih =>
    have hsteps : StepAlike _ _ Eq (step setting s) (step setting t) := step_beside h
    rw [hstep] at hsteps
    generalize hx : step setting t = x at hsteps
    cases hsteps with
    | next alike files =>
      obtain ⟨hend, hvisits⟩ := ih ⟨alike, files⟩
      rw [run_of_next hx, visits_of_next hstep, visits_of_next hx]
      exact ⟨hend, visits_append (visit?_beside h) hvisits⟩
  | case2 s u hstep =>
    have hsteps : StepAlike _ _ Eq (step setting s) (step setting t) := step_beside h
    rw [hstep] at hsteps
    generalize hx : step setting t = x at hsteps
    cases hsteps with
    | finished alike =>
      rw [run_of_finished hx, visits_of_finished hstep, visits_of_finished hx]
      exact ⟨.ok alike, .nil⟩
  | case3 s fault u hstep =>
    have hsteps : StepAlike _ _ Eq (step setting s) (step setting t) := step_beside h
    rw [hstep] at hsteps
    generalize hx : step setting t = x at hsteps
    cases hsteps with
    | stopped fault alike =>
      rw [run_of_stopped hx, visits_of_stopped hstep, visits_of_stopped hx]
      exact ⟨.stopped fault alike, .nil⟩

/-- The same statements at the same addresses give the same output. -/
theorem Visit.Same.output {v w : Visit} (h : v.Same w) (f : Format) : v.output f = w.output f := by
  obtain ⟨⟨⟩, _⟩ := v
  obtain ⟨⟨⟩, _⟩ := w
  obtain ⟨hstatement, haddress, hplaced⟩ := h
  cases hstatement
  cases haddress
  cases hplaced
  rfl

theorem fileOf_congr {vs ws : List Visit} (h : List.Forall₂ Visit.Same vs ws) (start : UInt16)
    (f : Format) : fileOf start vs f = fileOf start ws f := by
  have houtput : vs.flatMap (Visit.output f) = ws.flatMap (Visit.output f) := by
    induction h with
    | nil => rfl
    | cons same _ ih => rw [List.flatMap_cons, List.flatMap_cons, same.output f, ih]
  rw [fileOf, fileOf, houtput]

end Assembly

/-! ### Runs -/

open Assembler6502.Assembly

theorem Failure.Alike.refl (f : Failure) : f.Alike Eq f := by
  cases f with
  | stopped fault =>
    cases fault with
    | diagnostic d => exact .stopped (.diagnostic rfl)
    | file error => exact .stopped (.file error)
  | rejected ds => exact .rejected (List.forall₂_same.mpr fun _ _ => rfl)

theorem Failure.Alike.eq {f g : Failure} (h : f.Alike Eq g) : f = g := by
  cases h with
  | stopped fault =>
    cases fault with
    | diagnostic alike => rw [alike]
    | file error => rfl
  | rejected errors =>
    rw [List.forall₂_eq_eq_eq] at errors
    rw [errors]

/-- The session with another format. -/
def Session.withFormat (f : Format) (s : Session) : Session :=
  { s with options := { s.options with format := f } }

/-- The job with another format. -/
def Job.withFormat (f : Format) (job : Job) : Job :=
  { job with session := job.session.withFormat f }

namespace Session

variable {disk : Disk} {input : Input} {job done : Job} {report : Report} {f : Format}

/-- The first pass does not look at the format. -/
theorem firstPass_withFormat (disk : Disk) (input : Input) (s : Session) :
    (∃ (start : UInt16) (s' : Session), ∀ f,
      firstPass disk input (s.withFormat f) = .ok start (s'.withFormat f)) ∨
    ∃ (failure : Failure) (s' : Session), ∀ f,
      firstPass disk input (s.withFormat f) = .error failure (s'.withFormat f) := by
  unfold firstPass
  cases input.source disk with
  | error error => exact .inr ⟨_, s.reset, fun f => rfl⟩
  | ok source =>
    have hpass : ∀ f, (s.withFormat f).reset.runPass .first disk source none =
        s.reset.runPass .first disk source none := fun f => rfl
    simp only [hpass]
    cases s.reset.runPass .first disk source none with
    | ok x state =>
      exact .inl ⟨_, { s.reset.resume state with
        scopes := state.assigned.foldl Scopes.eraseEverywhere state.scopes }, fun f => rfl⟩
    | error failure state => exact .inr ⟨_, s.reset.resume state, fun f => rfl⟩

theorem begin_of_roomy {e : Emitter} (h : e.writer.room = none) (start : UInt16) :
    Emitter.begin start e =
      .ok () ⟨e.format, ⟨e.writer.written ++ e.format.header start, none⟩, e.size⟩ :=
  Emitter.put_of_room h (e.format.header start) 0

/-- What the second pass starts with in two formats. -/
theorem beside_header (start : UInt16) (writer : Writer) (f g : Format) :
    Emitter.Beside ⟨f, ⟨writer.written ++ f.header start, none⟩, 0⟩
      ⟨g, ⟨writer.written ++ g.header start, none⟩, 0⟩ :=
  ⟨rfl, rfl, rfl⟩

/-- The second pass in two formats. -/
theorem secondPass_formats (disk : Disk) (input : Input) (start : UInt16) (job : Job)
    (hroom : job.writer.room = none) (f g : Format) :
    SameOutcome Eq (fun a b => b.session = a.session.withFormat g)
      (secondPass disk input start (job.withFormat f))
      (secondPass disk input start (job.withFormat g)) := by
  have hbegin : ∀ h : Format, Emitter.begin start (.start h job.writer) =
      .ok () ⟨h, ⟨job.writer.written ++ h.header start, none⟩, 0⟩ :=
    fun h => begin_of_roomy hroom start
  have hformat : ∀ h : Format, (job.withFormat h).session.options.format = h := fun _ => rfl
  have hwriter : ∀ h : Format, (job.withFormat h).writer = job.writer := fun _ => rfl
  rw [secondPass_eq, secondPass_eq]
  simp only [hformat, hwriter, hbegin]
  cases input.source disk with
  | error error => exact .failed (.stopped (.file error)) rfl
  | ok source =>
    have hrun := (run_beside (job.session.setting .second disk)
      (abreast_initial (beside_header start job.writer f g) job.session source)).1
    have hpass : SameOutcome Eq (Assembly.Alike (Option.Rel Emitter.Beside) Eq)
        ((job.withFormat f).session.runPass .second disk source _)
        ((job.withFormat g).session.runPass .second disk source _) := runPass_alike hrun
    dsimp only
    generalize (job.withFormat f).session.runPass .second disk source _ = x at hpass
    generalize (job.withFormat g).session.runPass .second disk source _ = y at hpass
    cases hpass with
    | @ok _ u v states =>
      -- the report has the count of bytes, which the format does not change
      have hsize : ∀ e e' : Emitter, e.Beside e' →
          (u.image.getD e).size = (v.image.getD e').size := by
        intro e e' hbeside
        have himage := states.twin.image
        generalize u.image = image at himage
        generalize v.image = image' at himage
        cases himage with
        | none => exact hbeside.size
        | some beside => exact beside.size
      dsimp only
      rw [hsize _ _ (beside_header start job.writer f g), states.twin.address]
      refine .ok _ ?_
      simp only [resume, states.twin.scopes, states.twin.anonymous]
      rfl
    | failed failures states =>
      refine .failed failures ?_
      simp only [resume, states.twin.scopes, states.twin.anonymous]
      rfl

/-- Runs in two formats. -/
theorem assemble_formats (disk : Disk) (input : Input) (job : Job)
    (hroom : job.writer.room = none) (f g : Format) :
    SameOutcome Eq (fun a b => b.session = a.session.withFormat g)
      (assemble disk input (job.withFormat f)) (assemble disk input (job.withFormat g)) := by
  have hsession : ∀ h : Format, (job.withFormat h).session = job.session.withFormat h :=
    fun _ => rfl
  unfold assemble
  rcases firstPass_withFormat disk input job.session with
    ⟨start, s, hfirst⟩ | ⟨failure, s, hfirst⟩
  · simp only [hsession, hfirst]
    exact secondPass_formats disk input start ⟨s, job.writer⟩ hroom f g
  · simp only [hsession, hfirst]
    exact .failed (Failure.Alike.refl failure) rfl

/-- Runs in two formats carry out the same statements. -/
theorem secondVisits_formats (disk : Disk) (input : Input) (job : Job)
    (hroom : job.writer.room = none) (f g : Format) :
    List.Forall₂ Visit.Same (secondVisits disk input (job.withFormat f))
      (secondVisits disk input (job.withFormat g)) := by
  have hsession : ∀ h : Format, (job.withFormat h).session = job.session.withFormat h :=
    fun _ => rfl
  have hwriter : ∀ h : Format, (job.withFormat h).writer = job.writer := fun _ => rfl
  unfold secondVisits
  rcases firstPass_withFormat disk input job.session with
    ⟨start, s, hfirst⟩ | ⟨failure, s, hfirst⟩
  · have hbegin : ∀ h : Format,
        Emitter.begin start (.start (s.withFormat h).options.format job.writer) =
          .ok () ⟨h, ⟨job.writer.written ++ h.header start, none⟩, 0⟩ :=
      fun h => begin_of_roomy hroom start
    simp only [hsession, hwriter, hfirst, hbegin]
    cases input.source disk with
    | error error => exact .nil
    | ok source =>
      exact (run_beside (s.setting .second disk)
        (abreast_initial (beside_header start job.writer f g) s source)).2
  · simp only [hsession, hfirst]
    exact .nil

/-- What a run writes. -/
theorem written_of_assemble (h : assemble disk input job = .ok report done) :
    done.writer.written = job.writer.written ++
      fileOf report.start (secondVisits disk input job) job.session.options.format := by
  obtain ⟨p⟩ := passes_of_assemble h
  obtain ⟨hformat, hbegun, -⟩ := Emitter.put_eq_ok p.begun
  change p.emitter.format = job.session.options.format at hformat
  change p.emitter.writer.written =
    job.writer.written ++ job.session.options.format.header _ at hbegun
  obtain ⟨e, himage, -, hwritten⟩ := p.second.outputs rfl rfl
  rw [congrArg Job.writer p.done_eq, himage, congrArg Report.start p.report_eq]
  show e.writer.written = _
  rw [hwritten, hbegun, hformat, List.append_assoc]
  rfl

/-- The bytes of a run are told of by the trace of its statements. -/
theorem shows_of_assemble (h : assemble disk input job = .ok report done)
    (hraw : job.session.options.format = .raw)
    (hrange : InRange (secondVisits disk input job)) :
    let image := fileOf report.start (secondVisits disk input job) .raw
    let entries := (secondVisits disk input job).flatMap Visit.entries
    image.length = report.size ∧ Trace.Shows entries image ∧
      (entries ≠ [] → report.stop.toInt = Trace.start entries + image.length) := by
  obtain ⟨p⟩ := passes_of_assemble h
  have hbegun := Emitter.begin_wrote hraw p.begun
  obtain ⟨e, image, himage, hwrote, hlaid⟩ := p.second.laidOut rfl rfl rfl hbegun.format hrange
  obtain ⟨e', himage', -, hwritten⟩ := p.second.outputs rfl rfl
  -- the image that is laid out is what the statements have written
  obtain rfl : e' = e := Option.some.inj (himage'.symm.trans himage)
  have heq : image = fileOf report.start (secondVisits disk input job) .raw := by
    rw [hbegun.format, hwrote.written] at hwritten
    exact List.append_cancel_left hwritten
  subst heq
  have hsize : report.size = e'.size := by
    rw [congrArg Report.size p.report_eq, himage]
    rfl
  refine ⟨?_, ?_⟩
  · rw [hsize, hwrote.size, hbegun.size]
    simp [Emitter.start]
  · rw [congrArg Report.stop p.report_eq]
    exact hlaid.shows hrange (p.second.code_ne_nil rfl)

/-- Runs that differ in the format only, with a writer that is never full, succeed with the same
report and names or fail with the same errors.  If they succeed, the load address stands in front of
the bytes alone, and the bytes can be rebuilt from the trace: each byte that the trace lists is at
its address, as seen from the first one, and the others up to the last address are zero. -/
theorem formats_agree (disk : Disk) (input : Input) (job : Job)
    (hroom : job.writer.room = none) :
    (∃ (failure : Failure) (session : Session), ∀ f, ∃ done,
      assemble disk input (job.withFormat f) = .error failure done ∧
        done.session = session.withFormat f) ∨
    ∃ (report : Report) (session : Session) (output : Format → List UInt8),
      (∀ f, ∃ done, assemble disk input (job.withFormat f) = .ok report done ∧
        done.session = session.withFormat f ∧
        done.writer.written = job.writer.written ++ output f) ∧
      output .c64 = littleEndian report.start ++ output .raw ∧
      (InRange (secondVisits disk input (job.withFormat .raw)) →
        (output .raw).length = report.size ∧
        ∃ entries, Trace.entries? (output .screen) = some entries ∧
          Trace.Shows entries (output .raw) ∧ Trace.image report.size entries = output .raw ∧
          (entries ≠ [] → report.stop.toInt = Trace.start entries + report.size)) := by
  have hsame := assemble_formats disk input job hroom .raw
  cases hrun : assemble disk input (job.withFormat .raw) with
  | error failure done =>
    refine .inl ⟨failure, done.session, fun f => ?_⟩
    have hf := hsame f
    rw [hrun] at hf
    generalize assemble disk input (job.withFormat f) = x at hf
    cases hf with
    | failed failures states => exact ⟨_, failures.eq ▸ rfl, states⟩
  | ok report done =>
    refine .inr ⟨report, done.session,
      fileOf report.start (secondVisits disk input (job.withFormat .raw)), fun f => ?_,
      fileOf_c64 _ _, fun hrange => ?_⟩
    · have hf := hsame f
      rw [hrun] at hf
      generalize hx : assemble disk input (job.withFormat f) = x at hf
      cases hf with
      | @ok _ _ t states =>
        refine ⟨t, rfl, states, ?_⟩
        rw [fileOf_congr (secondVisits_formats disk input job hroom .raw f)]
        exact written_of_assemble hx
    · obtain ⟨hlength, hshows, hstop⟩ := shows_of_assemble hrun rfl hrange
      refine ⟨hlength, _, ?_, hshows, ?_, ?_⟩
      · rw [fileOf_screen]
        exact Trace.entries?_text _
      · rw [← hlength]
        exact hshows.image_eq
      · rw [← hlength]
        exact hstop

/-- An instruction, a gap, words and text, and a gap at the end. -/
def mixedInput : Input :=
  .text "main" (Byte.ofChars
    " .org $1100\n lda $1234\n .org $1105\n .word $abcd\n .byte \"hi\",0\n .org $110c\n".toList)

theorem formats_agree_mixed :
    ∃ (report : Report) (output : Format → List UInt8),
      (∀ f, ∃ done, assemble (.empty []) mixedInput (Job.plain.withFormat f) = .ok report done ∧
        done.writer.written = output f) ∧
      output .raw = [0xad, 0x34, 0x12, 0, 0, 0xcd, 0xab, 0x68, 0x69, 0, 0, 0] ∧
      output .c64 = [0x00, 0x11] ++ output .raw ∧
      ∃ entries, Trace.entries? (output .screen) = some entries ∧
        Trace.image report.size entries = output .raw := by
  obtain ⟨report, done, hrun, hresult⟩ :=
    exists_of_trace (n := 10)
      (f := fun (_, ws, report, done) => (report.start, done.writer.written,
        ws.all fun v => 0 ≤ v.start ∧ v.stop < 0x80000000))
      (show (trace 10 (.empty []) mixedInput (Job.plain.withFormat .raw)).map _ =
          some ((0x1100 : UInt16),
            ([0xad, 0x34, 0x12, 0, 0, 0xcd, 0xab, 0x68, 0x69, 0, 0, 0] : List UInt8), true) by
        decide +kernel)
  simp only [Prod.mk.injEq] at hresult
  obtain ⟨hstart, hwritten, hall⟩ := hresult
  have hrange : InRange (secondVisits (.empty []) mixedInput (Job.plain.withFormat .raw)) :=
    fun v hv => of_decide_eq_true (List.all_eq_true.mp hall v hv)
  rcases formats_agree (.empty []) mixedInput Job.plain rfl with
    ⟨failure, session, hfails⟩ | ⟨report', session, output, hruns, hc64, htrace⟩
  · obtain ⟨done', herror, -⟩ := hfails .raw
    rw [hrun] at herror
    cases herror
  · obtain ⟨done', hok, -, hdone'⟩ := hruns .raw
    rw [hrun] at hok
    cases hok
    obtain ⟨-, entries, hentries, -, himage, -⟩ := htrace hrange
    rw [hstart] at hc64
    refine ⟨report, output, fun f => ?_, hdone'.symm.trans hwritten, hc64, entries, hentries,
      himage⟩
    obtain ⟨done'', hok, -, hdone''⟩ := hruns f
    exact ⟨done'', hok, hdone''⟩

end Session

end Assembler6502
