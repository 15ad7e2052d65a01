/-
The two passes of a run.

A run that succeeds is two clean runs over the same source: the first one with
no names at the start, the second one with the names that the first one left,
those bound by assignments forgotten.

* **`passes_of_assemble`** — the two passes of a run that succeeds;
* **`Session.firstVisits`**, **`Session.secondVisits`** — the statements that
  they carry out;
* **`trace_eq_some`** — a run of a few steps, computed step by step.
-/
import Assembler6502.Proofs.Assembly.Visits
import Assembler6502.Session

namespace Assembler6502

open Assembler6502.Assembly

/-- A run with the default options that writes without a bound. -/
def Job.plain : Job := ⟨.start {}, .ofCapacity none⟩

namespace Session

/-- The statements that the first pass of a run carries out. -/
def firstVisits (disk : Disk) (input : Input) (s : Session) : List Visit :=
  match input.source disk with
  | .error _ => []
  | .ok source => visits (s.setting .first disk) (s.reset.initial source none)

/-- The statements that the second pass of a run carries out, if the run comes to it. -/
def secondVisits (disk : Disk) (input : Input) (job : Job) : List Visit :=
  match firstPass disk input job.session with
  | .error _ _ => []
  | .ok start session =>
    match Emitter.begin start (.start session.options.format job.writer), input.source disk with
    | .ok _ emitter, .ok source =>
      visits (session.setting .second disk) (session.initial source (some emitter))
    | _, _ => []

/-- The session between the passes, for the state at the end of the first one. -/
def between (s : Session) (middle : State) : Session :=
  { s with
    scopes := middle.assigned.foldl Scopes.eraseEverywhere middle.scopes
    anonymous := middle.anonymous }

/-- The two passes of a run that succeeds. -/
structure Passes (disk : Disk) (input : Input) (job : Job) (report : Report) (done : Job) where
  source : Source
  /-- The end of the first pass. -/
  middle : State
  /-- The image with its header. -/
  emitter : Emitter
  /-- The end of the second pass. -/
  last : State
  first : Clean (job.session.setting .first disk) (job.session.reset.initial source none)
    (firstVisits disk input job.session) middle
  begun : Emitter.begin middle.start.toUInt32.toUInt16
    (.start job.session.options.format job.writer) = .ok () emitter
  second : Clean (job.session.setting .second disk)
    ((job.session.between middle).initial source (some emitter)) (secondVisits disk input job) last
  report_eq : report =
    ⟨middle.start.toUInt32.toUInt16, last.address, (last.image.getD emitter).size⟩
  done_eq : done =
    ⟨(job.session.between middle).resume last, (last.image.getD emitter).writer⟩

variable {disk : Disk} {input : Input} {job done : Job} {report : Report}

theorem Passes.scopes_eq (p : Passes disk input job report done) :
    done.session.scopes = p.last.scopes :=
  congrArg (fun j => j.session.scopes) p.done_eq

theorem runPass_eq_ok {s : Session} {pass : Pass} {source : Source} {image : Option Emitter}
    {t : State} (h : s.runPass pass disk source image = .ok () t) :
    Clean (s.setting pass disk) (s.initial source image)
      (visits (s.setting pass disk) (s.initial source image)) t := by
  unfold runPass conclude at h
  split at h
  · next hrun =>
    split at h
    · next he =>
      cases h
      exact (clean_of_run hrun he).2
    · cases h
  · cases h

theorem firstPass_eq_ok {s s' : Session} {start : UInt16}
    (h : firstPass disk input s = .ok start s') :
    ∃ source middle, input.source disk = .ok source ∧
      Clean (s.setting .first disk) (s.reset.initial source none)
        (firstVisits disk input s) middle ∧
      start = middle.start.toUInt32.toUInt16 ∧ s' = s.between middle := by
  unfold firstPass at h
  unfold firstVisits
  dsimp only at h
  split at h
  · cases h
  · next source hsource =>
    split at h
    · cases h
    · next middle hpass =>
      cases h
      rw [hsource]
      exact ⟨source, middle, rfl, runPass_eq_ok hpass, rfl, rfl⟩

theorem secondVisits_eq {start : UInt16} {session : Session} {x : Unit} {emitter : Emitter}
    {source : Source} (hfirst : firstPass disk input job.session = .ok start session)
    (hbegin : Emitter.begin start (.start session.options.format job.writer) = .ok x emitter)
    (hsource : input.source disk = .ok source) :
    secondVisits disk input job =
      visits (session.setting .second disk) (session.initial source (some emitter)) := by
  unfold secondVisits
  rw [hfirst]
  dsimp only
  rw [hbegin, hsource]

/-- A run that succeeds is made of two clean passes. -/
theorem passes_of_assemble (h : assemble disk input job = .ok report done) :
    Nonempty (Passes disk input job report done) := by
  unfold assemble at h
  split at h
  · cases h
  · next start session hfirst =>
    obtain ⟨source, middle, hsource, hclean, rfl, rfl⟩ := firstPass_eq_ok hfirst
    rw [secondPass_eq] at h
    split at h
    · cases h
    · next emitter hbegin =>
      rw [hsource] at h
      dsimp only at h
      split at h
      · cases h
      · next last hpass =>
        cases h
        refine ⟨⟨source, middle, emitter, last, hclean, hbegin, ?_, rfl, rfl⟩⟩
        rw [secondVisits_eq hfirst hbegin hsource]
        exact runPass_eq_ok hpass

/-! ### Runs of a few steps -/

/-- The visits of a pass that ends within `n` steps without an error, and its end. -/
def tracePass (n : Nat) (disk : Disk) (source : Source) (pass : Pass) (image : Option Emitter)
    (s : Session) : Option (List Visit × State) :=
  match walk (s.setting pass disk) n (s.initial source image) with
  | some (vs, .ok _ t) => if t.errors = [] then some (vs, t) else none
  | _ => none

/-- The visits of both passes with the result of the run, if it succeeds and each pass ends within
`n` steps. -/
def trace (n : Nat) (disk : Disk) (input : Input) (job : Job) :
    Option (List Visit × List Visit × Report × Job) := do
  let source ← (input.source disk).toOption
  let (vs, middle) ← job.session.reset.tracePass n disk source .first none
  let start := middle.start.toUInt32.toUInt16
  let session := job.session.between middle
  match Emitter.begin start (.start session.options.format job.writer) with
  | .error _ _ => none
  | .ok _ emitter =>
    let (ws, last) ← session.tracePass n disk source .second (some emitter)
    let image := last.image.getD emitter
    return (vs, ws, ⟨start, last.address, image.size⟩, ⟨session.resume last, image.writer⟩)

variable {n : Nat} {vs ws : List Visit}

theorem tracePass_eq_some {s : Session} {pass : Pass} {source : Source} {image : Option Emitter}
    {t : State} (h : s.tracePass n disk source pass image = some (vs, t)) :
    visits (s.setting pass disk) (s.initial source image) = vs ∧
      s.runPass pass disk source image = .ok () t := by
  unfold tracePass at h
  split at h
  · next us x u hwalk =>
    obtain ⟨hvisits, hrun⟩ := walk_eq_some hwalk
    split at h
    · next he =>
      cases h
      refine ⟨hvisits, ?_⟩
      unfold runPass conclude
      rw [hrun]
      exact if_pos he
    · cases h
  · cases h

theorem firstPass_of_runPass {s : Session} {source : Source} {middle : State}
    (hsource : input.source disk = .ok source)
    (hpass : s.reset.runPass .first disk source none = .ok () middle) :
    firstPass disk input s = .ok middle.start.toUInt32.toUInt16 (s.between middle) := by
  unfold firstPass
  rw [hsource]
  dsimp only
  rw [hpass]
  rfl

/-- A run that is traced is the run, and the trace has its visits. -/
theorem trace_eq_some (h : trace n disk input job = some (vs, ws, report, done)) :
    assemble disk input job = .ok report done ∧ firstVisits disk input job.session = vs ∧
      secondVisits disk input job = ws := by
  unfold trace at h
  cases hsource : input.source disk with
  | error e =>
    rw [hsource] at h
    cases h
  | ok source =>
    rw [hsource] at h
    obtain ⟨_, ⟨⟩, h⟩ := Option.bind_eq_some_iff.mp h
    obtain ⟨⟨us, middle⟩, htrace, h⟩ := Option.bind_eq_some_iff.mp h
    obtain ⟨hvisits, hpass⟩ := tracePass_eq_some htrace
    have hfirst := firstPass_of_runPass hsource hpass
    dsimp only at h
    split at h
    · cases h
    · next emitter hbegin =>
      obtain ⟨⟨us', last⟩, htrace', h⟩ := Option.bind_eq_some_iff.mp h
      obtain ⟨hvisits', hpass'⟩ := tracePass_eq_some htrace'
      cases h
      refine ⟨?_, ?_, ?_⟩
      · unfold assemble
        rw [hfirst]
        dsimp only
        rw [secondPass_eq, hbegin, hsource]
        dsimp only
        rw [hpass']
      · unfold firstVisits
        rw [hsource]
        exact hvisits
      · rw [secondVisits_eq hfirst hbegin hsource]
        exact hvisits'

/-- A run of which `f` is computed from its trace. -/
theorem exists_of_trace {α : Type} {f : List Visit × List Visit × Report × Job → α} {x : α}
    (h : (trace n disk input job).map f = some x) :
    ∃ report done, assemble disk input job = .ok report done ∧
      f (firstVisits disk input job.session, secondVisits disk input job, report, done) = x := by
  obtain ⟨⟨vs, ws, report, done⟩, htrace, hf⟩ := Option.map_eq_some_iff.mp h
  obtain ⟨hrun, rfl, rfl⟩ := trace_eq_some htrace
  exact ⟨report, done, hrun, hf⟩

end Session

end Assembler6502
