/-
Sessions.

A session is an assembler with its options and with the names that its last run
bound.  A run walks through its input twice.  The first pass binds the labels
and finds the start address; names bound by assignments are then forgotten, so
that the second pass binds them anew where they are assigned, and writes the
image.

* **`Session.firstPass`**, **`Session.secondPass`** — the two walks;
* **`Session.assemble`** — both of them, with the image in a writer;
* **`Session.assembleToPath`** — both of them, with the image in a file that is
  there only if the run succeeds;
* **`Session.evaluateLines`** — the calculator, on the names of the session;
* **`Session.listing`** — the names with their values.

Design notes.  A run that fails leaves behind the names it had bound until
then.  The file of `assembleToPath` is emptied between the passes, before the
second one reads its input again, and its bytes come to it during the pass and at
its end; that they do not fit may show at any of these times.
-/
import Assembler6502.Assembly.Run
import Assembler6502.Calculator

namespace Assembler6502

structure Options where
  format : Format := .raw
  /-- The character set of quoted text. -/
  characters : CharacterSet := .unchanged
  /-- The address of the first byte, unless the source sets another. -/
  origin : UInt16 := 0x1000
deriving DecidableEq, Repr

/-- What a run reads. -/
inductive Input where
  | text (name : String) (bytes : List UInt8)
  | file (path : String)
deriving DecidableEq, Repr

def Input.source (disk : Disk) : Input → Except FileError Source
  | text name bytes => .ok ⟨name, none, bytes⟩
  | file path => Assembly.openSource disk path

/-- What a run that succeeded tells of its image. -/
structure Report where
  /-- The address of the first byte. -/
  start : UInt16
  /-- The address behind the last statement. -/
  stop : Int32
  /-- The bytes of the image, gaps included. -/
  size : Nat
deriving DecidableEq, Repr

structure Session where
  options : Options
  scopes : Scopes
  anonymous : AnonymousLabels

/-- A session with the writer that takes its image. -/
structure Job where
  session : Session
  writer : Writer

namespace Session

def start (options : Options) : Session :=
  ⟨options, .empty, .empty⟩

/-- Forgets all names. -/
def reset (s : Session) : Session :=
  start s.options

/-! ### Passes -/

/-- What a pass of this session is given. -/
def setting (s : Session) (pass : Pass) (disk : Disk) : Assembly.Setting :=
  ⟨pass, s.options.characters, disk⟩

/-- The state at the start of a pass. -/
def initial (s : Session) (source : Source) (image : Option Emitter) : Assembly.State where
  scopes := s.scopes.rewind
  anonymous := s.anonymous
  files := .start source
  address := s.options.origin.toUInt32.toInt32
  start := s.options.origin.toUInt32.toInt32
  placed := false
  errors := []
  assigned := []
  image := image

/-- The session with the names that a pass left behind. -/
def resume (s : Session) (state : Assembly.State) : Session :=
  { s with scopes := state.scopes, anonymous := state.anonymous }

/-- Errors that a pass collected make it fail at its end. -/
def conclude : EStateM.Result Fault Assembly.State Unit → EStateM.Result Failure Assembly.State Unit
  | .ok _ state => if state.errors = [] then .ok () state else .error (.rejected state.errors) state
  | .error fault state => .error (.stopped fault) state

def runPass (s : Session) (pass : Pass) (disk : Disk) (source : Source) (image : Option Emitter) :
    EStateM.Result Failure Assembly.State Unit :=
  conclude (Assembly.run (s.setting pass disk) (s.initial source image))

/-- The first pass gives the start address. -/
def firstPass (disk : Disk) (input : Input) : EStateM Failure Session UInt16 := fun s =>
  let s := s.reset
  match input.source disk with
  | .error error => .error (.stopped (.file error)) s
  | .ok source =>
    match s.runPass .first disk source none with
    | .error failure state => .error failure (s.resume state)
    | .ok _ state =>
      let s := s.resume state
      .ok state.start.toUInt32.toUInt16
        { s with scopes := state.assigned.foldl Scopes.eraseEverywhere s.scopes }

/-- The second pass writes the image, on a disk that may change with what is written. -/
def secondPassOn (course : Assembly.Course) (input : Input) (start : UInt16) :
    EStateM Failure Job Report := fun job =>
  match Emitter.begin start (.start job.session.options.format job.writer) with
  | .error error emitter => .error (.stopped (.file error)) { job with writer := emitter.writer }
  | .ok _ emitter =>
    let held := Assembly.heldAfter 0 emitter.writer.written.length
    match course 0 held emitter.writer.written >>= fun disk => input.source disk with
    | .error error => .error (.stopped (.file error)) ⟨job.session, emitter.writer⟩
    | .ok source =>
      match conclude (Assembly.runOn (job.session.setting .second) course 0 held
        (job.session.initial source (some emitter))) with
      | .error failure state =>
        .error failure ⟨job.session.resume state, (state.image.getD emitter).writer⟩
      | .ok _ state =>
        let emitter := state.image.getD emitter
        .ok ⟨start, state.address, emitter.size⟩ ⟨job.session.resume state, emitter.writer⟩

/-- The second pass on a disk that stays the same. -/
def secondPass (disk : Disk) : Input → UInt16 → EStateM Failure Job Report :=
  secondPassOn fun _ _ _ => .ok disk

theorem secondPass_eq (disk : Disk) (input : Input) (start : UInt16) (job : Job) :
    secondPass disk input start job =
      match Emitter.begin start (.start job.session.options.format job.writer) with
      | .error error emitter =>
        .error (.stopped (.file error)) { job with writer := emitter.writer }
      | .ok _ emitter =>
        match input.source disk with
        | .error error => .error (.stopped (.file error)) ⟨job.session, emitter.writer⟩
        | .ok source =>
          match job.session.runPass .second disk source (some emitter) with
          | .error failure state =>
            .error failure ⟨job.session.resume state, (state.image.getD emitter).writer⟩
          | .ok _ state =>
            let emitter := state.image.getD emitter
            .ok ⟨start, state.address, emitter.size⟩ ⟨job.session.resume state, emitter.writer⟩ := by
  unfold secondPass secondPassOn runPass
  simp only [Assembly.runOn_still]
  rfl

/-! ### Runs -/

/-- Both passes, with the image in a writer. -/
def assemble (disk : Disk) (input : Input) : EStateM Failure Job Report := fun job =>
  match firstPass disk input job.session with
  | .error failure session => .error failure { job with session }
  | .ok start session => secondPass disk input start { job with session }

/-- The image of a text. -/
def assembleBytes (disk : Disk) (bytes : List UInt8) : EStateM Failure Session (List UInt8) :=
  fun s =>
    match assemble disk (.text "<source>" bytes) ⟨s, .ofCapacity none⟩ with
    | .ok _ job => .ok job.writer.written job.session
    | .error failure job => .error failure job.session

/-- Both passes, with the image in a file. -/
def assembleToPath (input output : String) : EStateM Failure (Session × Disk) Report :=
  fun (s, disk) =>
    match firstPass disk (.file input) s with
    | .error failure s => .error failure (s, disk)
    | .ok start s =>
      match disk.target output with
      | .error error => .error (.stopped (.file error)) (s, disk)
      | .ok place =>
        match secondPassOn (disk.receive place) (.file input) start ⟨s, .ofCapacity none⟩ with
        | .error failure job =>
          .error failure (job.session, disk.abandon output place job.writer.written)
        | .ok report job =>
          match disk.store place job.writer.written with
          | .error error =>
            .error (.stopped (.file error))
              (job.session, disk.abandon output place job.writer.written)
          | .ok disk => .ok report (job.session, disk)

/-! ### Names -/

/-- The lines of a calculation with their values. -/
def evaluateLines (name : String) (bytes : List UInt8) :
    EStateM Diagnostic Session (List (Nat × Int32)) := fun s =>
  match Calculator.lines (.start ⟨name, none, bytes⟩ s.scopes) with
  | .ok values r => .ok values { s with scopes := r.scopes }
  | .error d r => .error d { s with scopes := r.scopes }

/-- The value of a name, in any case of its letters. -/
def lookup (s : Session) (name : String) : Option Int32 :=
  (s.scopes.resolve name.toLower).map Definition.value

/-- A line of the listing. -/
def listingLine (entry : String × Definition) : String :=
  entry.1 ++ " = $" ++ String.ofList (Hexadecimal.upperWord entry.2.value) ++ "\n"

/-- Every name that has a value, a line each. -/
def listing (s : Session) : String :=
  String.join (s.scopes.entries.map listingLine)

end Session

end Assembler6502
