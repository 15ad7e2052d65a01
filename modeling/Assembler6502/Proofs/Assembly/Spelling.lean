/-
Passes do not depend on the spelling.

Two passes read the same files in two spellings, from two disks.  They take the
same steps: whatever a statement does in one of them it does in the other, and
the files that they include are spellings of one file again.

* **`Disk.Alike`** — two disks with the same files in two spellings;
* **`read_alike`** — what is read from them;
* **`step_respelled`** — one step of both passes;
* **`run_respelled`** — both passes end alike.
-/
import Assembler6502.Proofs.Assembly.SourceFiles
import Assembler6502.Proofs.Statement.Spelling

namespace Assembler6502

/-! ### Disks -/

namespace Disk

/-- The same directory or link in both, or a file in two spellings. -/
inductive Entry.Alike : Entry → Entry → Prop where
  | file {bytes bytes' : List UInt8}
      (same : Byte.canonical .code bytes = Byte.canonical .code bytes') :
      Entry.Alike (.file bytes) (.file bytes')
  | directory : Entry.Alike .directory .directory
  | link (path : String) : Entry.Alike (.link path) (.link path)

theorem Entry.Alike.refl (entry : Entry) : entry.Alike entry := by
  cases entry with
  | file bytes => exact .file rfl
  | directory => exact .directory
  | link path => exact .link path

/-- Two disks with the same files in two spellings. -/
structure Alike (d d' : Disk) : Prop where
  here : d.here = d'.here
  entries : ∀ place, Option.Rel Entry.Alike (d.entry? place) (d'.entry? place)

theorem Alike.refl (d : Disk) : d.Alike d where
  here := rfl
  entries place := by
    cases d.entry? place with
    | none => exact .none
    | some entry => exact .some (.refl entry)

/-- A file that is written in two spellings. -/
theorem alike_write (d : Disk) (place : Place) {bytes bytes' : List UInt8}
    (h : Byte.canonical .code bytes = Byte.canonical .code bytes') :
    (d.write place bytes).Alike (d.write place bytes') where
  here := rfl
  entries p := by
    cases hp : d.isDirectory p with
    | true =>
      rw [entry?_of_isDirectory (isDirectory_write.trans hp),
        entry?_of_isDirectory (isDirectory_write.trans hp)]
      exact .some .directory
    | false =>
      rw [entry?_of_not (isDirectory_write.trans hp), entry?_of_not (isDirectory_write.trans hp),
        node?_write hp, node?_write hp]
      cases (if p = place then some (.file (d.numberAt place)) else d.node? p : Option Node) with
      | none => exact .none
      | some node =>
        refine .some ?_
        cases node with
        | link path => exact .link path
        | file number =>
          refine .file ?_
          rw [bytes_write, bytes_write]
          split
          · exact h
          · rfl

theorem walk_alike {d d' : Disk} (h : d.Alike d')
    (onward : Place → List String → Except FileError Place) (start : Place)
    (components : List String) :
    d.walk onward start components = d'.walk onward start components := by
  induction components generalizing start with
  | nil => rfl
  | cons component rest ih =>
    have hstart := h.entries start
    have hnext := h.entries (move start component)
    unfold walk
    generalize d.entry? start = x at hstart
    generalize d'.entry? start = y at hstart
    cases hstart with
    | none => rfl
    | some entry =>
      cases entry with
      | file same => rfl
      | link path => rfl
      | directory =>
        dsimp only
        generalize d.entry? (move start component) = x at hnext
        generalize d'.entry? (move start component) = y at hnext
        cases hnext with
        | none => exact ih _
        | some entry =>
          cases entry with
          | file same => exact ih _
          | link path => rfl
          | directory => exact ih _

theorem follow_alike {d d' : Disk} (h : d.Alike d') (links : Nat) :
    d.follow links = d'.follow links := by
  induction links with
  | zero =>
    funext start components
    exact walk_alike h _ start components
  | succ links ih =>
    funext start components
    show d.walk (d.follow links) start components = d'.walk (d'.follow links) start components
    rw [ih]
    exact walk_alike h _ start components

theorem lead_alike {d d' : Disk} (h : d.Alike d') (path : String) : d.lead path = d'.lead path := by
  unfold lead
  rw [h.here, follow_alike h]

end Disk

namespace Assembly

variable {d d' : Disk}

/-- Two attempts to open a source: both give a spelling of it, or both fail with the same error. -/
inductive Opened : Except FileError Source → Except FileError Source → Prop where
  | ok {s t : Source} (alike : s.Alike t) : Opened (.ok s) (.ok t)
  | error (error : FileError) : Opened (.error error) (.error error)

theorem openSource_alike (h : d.Alike d') (path : String) :
    Opened (openSource d path) (openSource d' path) := by
  unfold openSource Disk.read Disk.locate
  rw [Disk.lead_alike h]
  cases d'.lead path with
  | error error => exact .error error
  | ok place =>
    have hentries := h.entries place
    simp only [Bind.bind, Except.bind, pure, Except.pure, throw, throwThe, MonadExceptOf.throw]
    generalize d.entry? place = x at hentries
    generalize d'.entry? place = y at hentries
    cases hentries with
    | none => exact .error .notFound
    | some entry =>
      cases entry with
      | file same => exact .ok ⟨rfl, rfl, same⟩
      | directory => exact .error .isDirectory
      | link path => exact .error .tooManyLinks

/-- Both passes find the file that a line includes, or none of them does. -/
theorem included?_alike (h : d.Alike d') {source source' : Source}
    (hpath : source.path = source'.path) (name : String) :
    Option.Rel Source.Alike (included? d source name) (included? d' source' name) := by
  have hopened : ∀ path, Option.Rel Source.Alike (openSource d path).toOption
      (openSource d' path).toOption := by
    intro path
    have hopened := openSource_alike h path
    generalize openSource d path = x at hopened
    generalize openSource d' path = y at hopened
    cases hopened with
    | ok alike => exact .some alike
    | error error => exact .none
  have hname := hopened name
  rw [included?_eq, included?_eq, hpath]
  generalize (openSource d name).toOption = x at hname
  generalize (openSource d' name).toOption = y at hname
  cases hname with
  | some alike => exact .some alike
  | none =>
    cases source'.path with
    | none => exact .none
    | some path => exact hopened _

/-! ### Open files -/

/-- Two spellings of a file, read to the same place. -/
structure ReaderAlike (r r' : Reader) : Prop where
  source : r.source.Alike r'.source
  cursor : r.cursor.Alike r'.cursor

/-- The same files are open in two spellings. -/
structure FilesAlike (files files' : OpenFiles) : Prop where
  current : ReaderAlike files.current files'.current
  outer : List.Forall₂ ReaderAlike files.outer files'.outer

theorem ReaderAlike.start {s t : Source} (h : s.Alike t) : ReaderAlike (.start s) (.start t) :=
  ⟨h, h.ofBytes⟩

theorem FilesAlike.push {files files' : OpenFiles} (h : FilesAlike files files') {r r' : Reader}
    (hr : ReaderAlike r r') (hs : files.outer.length + 1 < includeLimit)
    (ht : files'.outer.length + 1 < includeLimit) :
    FilesAlike (files.push r hs) (files'.push r' ht) :=
  ⟨hr, .cons h.current h.outer⟩

theorem FilesAlike.pop? {files files' : OpenFiles} (h : FilesAlike files files') :
    Option.Rel FilesAlike files.pop? files'.pop? := by
  obtain ⟨current, outer, bounded⟩ := files
  obtain ⟨current', outer', bounded'⟩ := files'
  obtain ⟨hcurrent, houter⟩ := h
  cases houter with
  | nil => exact .none
  | cons first rest => exact .some ⟨first, rest⟩

/-! ### Passes -/

variable {setting setting' : Setting} {s t : State}

/-- Two passes over the same files in two spellings. -/
structure Respelled (s t : State) : Prop where
  alike : Alike Eq Diagnostic.SameButText s t
  files : FilesAlike s.files t.files

theorem Respelled.reading (h : Respelled s t) : s.reading.Alike t.reading :=
  ⟨h.files.current.source, h.files.current.cursor, h.alike.twin.scopes⟩

theorem Respelled.resume {r r' : Reading} (h : Respelled s t) (hr : r.Alike r') :
    Respelled (s.resume r) (t.resume r') :=
  ⟨h.alike.resume hr.scopes, ⟨hr.source, hr.cursor⟩, h.files.outer⟩

theorem Respelled.placed (h : Respelled s t) : PlacedAlike Diagnostic.SameButText s t :=
  fun error => h.reading.diagnostic error

/-- What two passes are given over the same files in two spellings. -/
structure Setting.Alike (setting setting' : Setting) : Prop where
  pass : setting.pass = setting'.pass
  characters : setting.characters = setting'.characters
  disk : setting.disk.Alike setting'.disk

section

variable (hsetting : Setting.Alike setting setting')

include hsetting

theorem endFile_respelled (h : Respelled s t) :
    StepAlike Eq Diagnostic.SameButText FilesAlike (endFile setting s) (endFile setting' t) := by
  have hpop := h.files.pop?
  unfold endFile
  generalize s.files.pop? = x at hpop
  generalize t.files.pop? = y at hpop
  cases hpop with
  | some files => exact .next (h.alike.withFiles _ _) files
  | none =>
    refine .finished ?_
    unfold State.finish
    rw [hsetting.pass, h.alike.twin.scopes]
    split
    · exact h.alike.note (h.placed _)
    · exact h.alike

/-- A statement is carried out alike. -/
theorem carryOut_respelled (statement : Statement) (h : Respelled s t) :
    StepAlike Eq Diagnostic.SameButText FilesAlike (carryOut setting statement s)
      (carryOut setting' statement t) := by
  by_cases hinclude : ∃ name, statement = .includeFile name
  · obtain ⟨name, rfl⟩ := hinclude
    refine include_alike h.alike h.placed
      (included?_alike hsetting.disk h.files.current.source.path name) h.files.outer.length_eq
      h.files fun source source' hs ht hsources => h.files.push (.start hsources) hs ht
  · exact carryOut_alike emitsAlike_eq (fun same => same.cause) hsetting.pass
      (fun name hname => hinclude ⟨name, hname⟩) h.alike h.placed h.files

omit hsetting in
theorem both_of_readAlike {x y : EStateM.Result Diagnostic Reading Statement} (h : ReadAlike x y)
    (hending : ∀ r, x ≠ .ok .endOfInput r) :
    Statement.Both Diagnostic.SameButText Reading.Alike x y := by
  cases h with
  | error same alike => exact .failed same alike.recover
  | @ok statement r r' alike =>
    by_cases hundefined : statement = .undefined
    · subst hundefined
      exact .undefined alike.diagnostic alike.recover
    · refine .read (fun hend => ?_) hundefined alike
      subst hend
      exact hending r rfl

/-- A step of both passes. -/
theorem step_respelled (h : Respelled s t) :
    StepAlike Eq Diagnostic.SameButText FilesAlike (step setting s) (step setting' t) := by
  have hcontext : s.context setting = t.context setting' := by
    rw [h.alike.context, State.context, State.context, hsetting.pass, hsetting.characters]
  have hgrammatical : Parser.Grammatical (Statement.parse (s.context setting)) :=
    Statement.parse_grammatical
  have hread := hgrammatical.readAlike h.reading
  rw [hcontext] at hread
  by_cases hending : ∃ r, Statement.parse (s.context setting) s.reading = .ok .endOfInput r
  · obtain ⟨r, hr⟩ := hending
    rw [← hcontext, hr] at hread
    generalize ht : Statement.parse (s.context setting) t.reading = y at hread
    cases hread with
    | ok _ alike =>
      rw [step_of_endOfInput hr, step_of_endOfInput (hcontext ▸ ht)]
      exact endFile_respelled hsetting (h.resume alike)
  · have hboth : Statement.Both Diagnostic.SameButText Reading.Alike
        (Statement.parse (s.context setting) s.reading)
        (Statement.parse (t.context setting') t.reading) := by
      rw [hcontext] at hending ⊢
      exact both_of_readAlike hread fun r hr => hending ⟨r, hr⟩
    exact step_alike (fun same => same.cause) h.alike hboth (fun _ _ halike => halike.scopes)
      (fun _ _ halike => (h.resume halike).files)
      fun statement _ _ _ halike => carryOut_respelled hsetting statement (h.resume halike)

/-- Both passes end alike. -/
theorem run_respelled (h : Respelled s t) :
    EndAlike Eq Diagnostic.SameButText (run setting s) (run setting' t) := by
  fun_induction run setting s generalizing t with
  | case1 s u hstep ih =>
    have hsteps := step_respelled hsetting h
    rw [hstep] at hsteps
    generalize ht : step setting' t = x at hsteps
    cases hsteps with
    | next alike files =>
      rw [run_of_next ht]
      exact ih ⟨alike, files⟩
  | case2 s u hstep =>
    have hsteps := step_respelled hsetting h
    rw [hstep] at hsteps
    generalize ht : step setting' t = x at hsteps
    cases hsteps with
    | finished alike =>
      rw [run_of_finished ht]
      exact .ok alike
  | case3 s fault u hstep =>
    have hsteps := step_respelled hsetting h
    rw [hstep] at hsteps
    generalize ht : step setting' t = x at hsteps
    cases hsteps with
    | stopped fault alike =>
      rw [run_of_stopped ht]
      exact .stopped fault alike

end

end Assembly

end Assembler6502
