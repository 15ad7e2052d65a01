/-
What the program leaves of its sources.

The program writes at most two files: the image and the listing of the names.  A
file that is read as source is changed only if one of them is written over it,
under any of its names.  Before it assembles, the program compares where the
input and the path of the image lead, so the image is written over the input only
if the input has another name.  It compares neither included files with the file
for the image, nor any source with the file for the listing.

* **`Ends`** — how a run of the program can end, with the disk it leaves;
* **`execute_ends`** — every run ends in one of these ways;
* **`run_leaves_sources`** — which files a run can change, and what they hold if
  it succeeds.
-/
import Assembler6502.CommandLine
import Assembler6502.Proofs.Scope.View
import Assembler6502.Proofs.Session.OutputFile

namespace Assembler6502

namespace CommandLine

variable {disk m : Disk} {input path : String} {a : Arguments} {place : Place} {session : Session}

/-- The file at a place is not the one that a path is written to, under whichever name. -/
def Spares (disk : Disk) (path : Option String) (place : Place) : Prop :=
  ∀ text goal, path = some text → disk.target text = .ok goal → ¬ disk.SameFile goal place

/-- The file for the image; without one it is printed. -/
def Arguments.image (a : Arguments) (input : String) : Option String :=
  match a.output, a.options.format with
  | some output, _ => some output
  | none, .screen => none
  | none, format => some (Path.withExtension input format.extension)

/-- The session and the disk when the input has been assembled. -/
inductive Assembled (disk : Disk) (input : String) (a : Arguments) : Session → Disk → Prop where
  | printed {report : Report} {job : Job} (image : a.image input = none)
      (run : Session.assemble disk (.file input) ⟨.start a.options, .ofCapacity none⟩ =
        .ok report job) : Assembled disk input a job.session disk
  /-- The second pass reads the disk while the image comes to its file. -/
  | written {path : String} {place : Place} {start : UInt16} {s : Session} {report : Report}
      {job : Job} (image : a.image input = some path) (apart : disk.samePlace input path = false)
      (target : disk.target path = .ok place)
      (first : Session.firstPass disk (.file input) (.start a.options) = .ok start s)
      (second : Session.secondPassOn (disk.receive place) (.file input) start
        ⟨s, .ofCapacity none⟩ = .ok report job) :
      Assembled disk input a job.session (disk.write place job.writer.written)

/-- How a run can end, and the disk that it leaves. -/
inductive Ends (disk : Disk) (input : String) (a : Arguments) (outcome : Outcome) : Prop where
  | evaluated (evaluate : a.evaluate = true) (disk_eq : outcome.disk = disk)
  | rejected (code : outcome.code = 1) (disk_eq : outcome.disk = disk)
  /-- The second pass has failed, or a write to the image. -/
  | abandoned {path : String} {place : Place} {written : List UInt8} (code : outcome.code = 1)
      (image : a.image input = some path) (apart : disk.samePlace input path = false)
      (target : disk.target path = .ok place)
      (disk_eq : outcome.disk = disk.abandon path place written)
  /-- The file for the listing cannot be created. -/
  | unlisted {session : Session} {m : Disk} (code : outcome.code = 1)
      (assembled : Assembled disk input a session m) (disk_eq : outcome.disk = m)
  /-- The file cannot hold the listing. -/
  | spilled {session : Session} {m : Disk} {path : String} {place : Place}
      (code : outcome.code = 1) (assembled : Assembled disk input a session m)
      (symbols : a.symbols = some path) (target : m.target path = .ok place)
      (disk_eq : outcome.disk = m.spill place (Byte.ofString session.listing))
  | done {session : Session} {m : Disk} (assembled : Assembled disk input a session m)
      (symbols : a.symbols = none) (disk_eq : outcome.disk = m)
  | listed {session : Session} {m : Disk} {path : String} {place : Place}
      (assembled : Assembled disk input a session m) (symbols : a.symbols = some path)
      (target : m.target path = .ok place)
      (disk_eq : outcome.disk = m.write place (Byte.ofString session.listing))

theorem writeListing_ends (h : Assembled disk input a session m) (output : List UInt8) :
    Ends disk input a (writeListing a.symbols session { output, disk := m }) := by
  cases hsymbols : a.symbols with
  | none => exact .done h hsymbols rfl
  | some path =>
    cases htarget : m.target path with
    | error error =>
      refine .unlisted ?_ h ?_
      · simp only [writeListing, htarget]
      · simp only [writeListing, htarget]
    | ok place =>
      cases hstore : m.store place (Byte.ofString session.listing) with
      | error error =>
        refine .spilled ?_ h hsymbols htarget ?_
        · simp only [writeListing, htarget, hstore]
        · simp only [writeListing, htarget, hstore]
      | ok after =>
        refine .listed h hsymbols htarget ?_
        simp only [writeListing, htarget, hstore]
        exact (Disk.store_eq_ok hstore).2

theorem evaluate_disk (disk : Disk) (input : String) (options : Options) :
    (evaluate disk input options).disk = disk := by
  unfold evaluate
  split
  · rfl
  · split
    · rfl
    · split <;> rfl

theorem assembleToOutput_ends (himage : a.image input = none) :
    Ends disk input a (assembleToOutput disk input a.options a.symbols) := by
  unfold assembleToOutput
  cases hrun : Session.assemble disk (.file input) ⟨.start a.options, .ofCapacity none⟩ with
  | error failure job => exact .rejected rfl rfl
  | ok report job => exact writeListing_ends (.printed himage hrun) job.writer.written

theorem assembleToFile_ends (himage : a.image input = some path) :
    Ends disk input a (assembleToFile disk input path a.options a.symbols) := by
  unfold assembleToFile
  cases hsame : disk.samePlace input path with
  | true => exact .rejected rfl rfl
  | false =>
    rw [if_neg (by simp)]
    cases hfirst : Session.firstPass disk (.file input) (.start a.options) with
    | error failure s =>
      rw [Session.assembleToPath_of_failed hfirst]
      exact .rejected rfl rfl
    | ok start s =>
      cases htarget : disk.target path with
      | error error =>
        rw [Session.assembleToPath_of_target hfirst htarget]
        exact .rejected rfl rfl
      | ok place =>
        rcases Session.assembleToPath_cases hfirst htarget with ⟨report, job, hsecond, -, hrun⟩ |
          ⟨failure, t, written, hrun⟩
        · rw [hrun]
          exact writeListing_ends (.written himage hsame htarget hfirst hsecond) []
        · rw [hrun]
          exact .abandoned rfl himage hsame htarget rfl

/-- Every run ends in one of these ways. -/
theorem execute_ends (disk : Disk) (input : String) (a : Arguments) :
    Ends disk input a (execute disk input a) := by
  unfold execute
  split
  · exact .rejected rfl rfl
  · split
    · next heval => exact .evaluated heval (evaluate_disk disk input a.options)
    · cases houtput : a.output with
      | some output => exact assembleToFile_ends (by rw [Arguments.image, houtput])
      | none =>
        cases hformat : a.options.format with
        | screen => exact assembleToOutput_ends (by rw [Arguments.image, houtput, hformat])
        | raw => exact assembleToFile_ends (by rw [Arguments.image, houtput, hformat])
        | c64 => exact assembleToFile_ends (by rw [Arguments.image, houtput, hformat])

/-! ### What the image changes -/

/-- The disk before the listing is written: at most the image is written. -/
inductive Imaged (disk : Disk) (input : String) (a : Arguments) (m : Disk) : Prop where
  | untouched (disk_eq : m = disk)
  | written {path : String} {place : Place} {bytes : List UInt8} (image : a.image input = some path)
      (apart : disk.samePlace input path = false) (target : disk.target path = .ok place)
      (disk_eq : m = disk.write place bytes)

theorem Assembled.imaged (h : Assembled disk input a session m) : Imaged disk input a m := by
  cases h with
  | printed image run => exact .untouched rfl
  | written image apart target first second => exact .written image apart target rfl

/-- The disk that a run leaves: the file for the image is given up, or at most the image and the
listing are written. -/
theorem Ends.disk_cases {outcome : Outcome} (h : Ends disk input a outcome) :
    (∃ path place written, a.image input = some path ∧ disk.samePlace input path = false ∧
      disk.target path = .ok place ∧ outcome.disk = disk.abandon path place written) ∨
    ∃ m, Imaged disk input a m ∧ (outcome.disk = m ∨ ∃ path place bytes, a.symbols = some path ∧
      m.target path = .ok place ∧ outcome.disk = m.write place bytes) := by
  cases h with
  | evaluated _ disk_eq => exact .inr ⟨disk, .untouched rfl, .inl disk_eq⟩
  | rejected _ disk_eq => exact .inr ⟨disk, .untouched rfl, .inl disk_eq⟩
  | abandoned _ image apart target disk_eq =>
    exact .inl ⟨_, _, _, image, apart, target, disk_eq⟩
  | unlisted _ assembled disk_eq => exact .inr ⟨_, assembled.imaged, .inl disk_eq⟩
  | spilled _ assembled symbols target disk_eq =>
    exact .inr ⟨_, assembled.imaged, .inr ⟨_, _, _, symbols, target, disk_eq⟩⟩
  | done assembled _ disk_eq => exact .inr ⟨_, assembled.imaged, .inl disk_eq⟩
  | listed assembled symbols target disk_eq =>
    exact .inr ⟨_, assembled.imaged, .inr ⟨_, _, _, symbols, target, disk_eq⟩⟩

/-- The image does not decide where the listing can be written. -/
theorem Imaged.target (h : Imaged disk input a m) (htarget : m.target path = .ok place) :
    disk.target path = .ok place := by
  cases h with
  | untouched disk_eq => rwa [disk_eq] at htarget
  | written _ _ target disk_eq =>
    rw [disk_eq] at htarget
    exact Disk.target_of_write target htarget

theorem Imaged.sameFile (h : Imaged disk input a m) {p q : Place} (hfile : m.SameFile p q) :
    disk.SameFile p q := by
  cases h with
  | untouched disk_eq => rwa [disk_eq] at hfile
  | written _ _ _ disk_eq =>
    rw [disk_eq] at hfile
    exact Disk.sameFile_write.mp hfile

theorem Imaged.entry (h : Imaged disk input a m) (himage : Spares disk (a.image input) place) :
    m.entry? place = disk.entry? place := by
  cases h with
  | untouched disk_eq => rw [disk_eq]
  | written image _ target disk_eq =>
    rw [disk_eq]
    exact Disk.entry?_write_of_not (himage _ _ image target)

/-- A file is kept unless the image or the listing is written over it. -/
theorem Ends.entry {outcome : Outcome} (h : Ends disk input a outcome)
    (himage : Spares disk (a.image input) place) (hsymbols : Spares disk a.symbols place)
    (hlink : ∀ path text, a.image input = some path → disk.nameOf path = .ok place →
      disk.entry? place ≠ some (.link text)) :
    outcome.disk.entry? place = disk.entry? place := by
  rcases h.disk_cases with ⟨path, goal, written, hpath, -, htarget, hdisk⟩ | ⟨m, himaged, hdisk⟩
  · obtain ⟨-, hlead, hend, -⟩ := Disk.target_eq_ok_iff.mp htarget
    rw [hdisk]
    refine (Disk.sameBut_abandon hend path written).elsewhere place ?_
    rintro (hfile | hname)
    · exact himage path goal hpath htarget hfile
    -- a name that is no link is the file itself
    · rw [Disk.lead_of_nameOf hname fun text => hlink path text hpath hname] at hlead
      cases hlead
      exact himage path _ hpath htarget (.inl rfl)
  · rw [← himaged.entry himage]
    rcases hdisk with hdisk | ⟨path, goal, bytes, hpath, htarget, hdisk⟩
    · rw [hdisk]
    · rw [hdisk]
      exact Disk.entry?_write_of_not fun hfile =>
        hsymbols path goal hpath (himaged.target htarget) (himaged.sameFile hfile)

/-- A file can only be written at the place of the input if both paths lead there. -/
theorem samePlace_of_target {bytes : List UInt8}
    (hinput : disk.locate input = .ok (place, .file bytes)) (htarget : disk.target path = .ok place) :
    disk.samePlace input path = true := by
  obtain ⟨-, hlead, -⟩ := Disk.target_eq_ok_iff.mp htarget
  obtain ⟨-, hentry⟩ := Disk.locate_eq_ok_iff.mp hinput
  rw [Disk.samePlace, hinput, Disk.locate_eq_ok_iff.mpr ⟨hlead, hentry⟩]
  simp

/-- Nothing is done if the input and the path of the image lead to the same place. -/
theorem Ends.disk_of_samePlace {outcome : Outcome} (h : Ends disk input a outcome)
    (himage : a.image input = some path) (hsame : disk.samePlace input path = true) :
    outcome.disk = disk := by
  have hnot : ∀ {path}, a.image input = some path → disk.samePlace input path ≠ false := by
    intro path hpath
    rw [himage] at hpath
    cases hpath
    simp [hsame]
  have hnone : ∀ {session m}, ¬ Assembled disk input a session m := by
    intro session m hassembled
    cases hassembled with
    | printed image run =>
      rw [himage] at image
      cases image
    | written image apart target first second => exact hnot image apart
  cases h with
  | evaluated _ disk_eq => exact disk_eq
  | rejected _ disk_eq => exact disk_eq
  | abandoned _ image apart _ _ => exact absurd apart (hnot image)
  | unlisted _ assembled _ => exact absurd assembled hnone
  | spilled _ assembled _ _ _ => exact absurd assembled hnone
  | done assembled _ _ => exact absurd assembled hnone
  | listed assembled _ _ _ => exact absurd assembled hnone

/-- The image is not written over the input, unless the input has another name. -/
theorem Ends.keeps_input {outcome : Outcome} {bytes : List UInt8} (h : Ends disk input a outcome)
    (hinput : disk.locate input = .ok (place, .file bytes))
    (himage : ∀ path goal, a.image input = some path → disk.target path = .ok goal →
      disk.SameFile goal place → goal = place)
    (hsymbols : Spares disk a.symbols place) : outcome.disk.entry? place = some (.file bytes) := by
  obtain ⟨-, hentry⟩ := Disk.locate_eq_ok_iff.mp hinput
  by_cases hsame : ∃ path, a.image input = some path ∧ disk.samePlace input path = true
  · obtain ⟨path, hpath, hsame⟩ := hsame
    rw [h.disk_of_samePlace hpath hsame, hentry]
  · rw [h.entry ?_ hsymbols (by simp [hentry]), hentry]
    intro path goal hpath htarget hfile
    cases himage path goal hpath htarget hfile
    exact hsame ⟨path, hpath, samePlace_of_target hinput htarget⟩

/-! ### Runs -/

/-- What a run of the program leaves of the files that it reads.  What is at a place is kept unless
the image or the listing is written to a file of that name, or a link that the path of the image ends
with is removed.  The input is kept unless the listing is written over it, or the image under another
name that the input has.  If the run succeeds, the image and the listing are written, whatever was
there, and the image is that of a second pass which reads the disk while it is written. -/
theorem run_leaves_sources (arguments : List String) (disk : Disk) (input : String) (a : Arguments)
    (hparse : Arguments.parse arguments = .ok (input, a)) :
    let outcome := run arguments disk
    (∀ place, Spares disk (a.image input) place → Spares disk a.symbols place →
      (∀ path text, a.image input = some path → disk.nameOf path = .ok place →
        disk.entry? place ≠ some (.link text)) →
      outcome.disk.entry? place = disk.entry? place) ∧
    (∀ place bytes, disk.locate input = .ok (place, .file bytes) →
      (∀ path goal, a.image input = some path → disk.target path = .ok goal →
        disk.SameFile goal place → goal = place) →
      Spares disk a.symbols place → outcome.disk.entry? place = some (.file bytes)) ∧
    (a.evaluate = false → outcome.code = 0 → ∃ session m, Assembled disk input a session m ∧
      ((a.symbols = none ∧ outcome.disk = m) ∨ ∃ path place, a.symbols = some path ∧
        disk.target path = .ok place ∧
        outcome.disk = m.write place (Byte.ofString session.listing))) := by
  intro outcome
  have hends : Ends disk input a outcome := by
    show Ends disk input a (run arguments disk)
    rw [run, hparse]
    exact execute_ends disk input a
  refine ⟨fun place => hends.entry, fun place bytes => hends.keeps_input, ?_⟩
  intro hevaluate hcode
  cases hends with
  | evaluated evaluate _ =>
    rw [hevaluate] at evaluate
    cases evaluate
  | rejected code _ | abandoned code _ _ _ _ | unlisted code _ _ | spilled code _ _ _ _ =>
    rw [hcode] at code
    cases code
  | done assembled symbols disk_eq => exact ⟨_, _, assembled, .inl ⟨symbols, disk_eq⟩⟩
  | listed assembled symbols target disk_eq =>
    exact ⟨_, _, assembled, .inr ⟨_, _, symbols, assembled.imaged.target target, disk_eq⟩⟩

def lone : Disk := (Disk.empty []).addFile "main.s" (Byte.ofChars " nop\n".toList)

/-- The listing of no names is written over the input. -/
theorem run_leaves_sources_listing :
    lone.read "main.s" = .ok (Byte.ofChars " nop\n".toList) ∧
      Disk.entry? (run ["--symbols", "main.s", "main.s"] lone).disk ["main.s"] =
        some (.file []) := by
  refine ⟨by decide +kernel, ?_⟩
  have hparse : Arguments.parse ["--symbols", "main.s", "main.s"] =
      .ok ("main.s", { input := some "main.s", symbols := some "main.s" }) := by decide +kernel
  have htarget : lone.target "main.bin" = .ok ["main.bin"] := by decide +kernel
  have hlisting : lone.target "main.s" = .ok ["main.s"] := by decide +kernel
  have himage : Arguments.image { input := some "main.s", symbols := some "main.s" } "main.s" =
      some "main.bin" := by decide +kernel
  have hsole := Disk.sole_of_nodes (show ∀ node ∈ lone.nodes.pairs,
    node.2 = .file (lone.numberAt ["main.bin"]) → node.1 = ["main.bin"] by decide +kernel)
  have hunread := Session.unread_of_sourcesRead (n := 10) (s := .start {}) htarget hsole
    (show (Session.sourcesRead 10 lone "main.s" "main.bin" (.start {})).map
      (fun places => places.contains ["main.bin"]) = some false by decide +kernel)
  obtain ⟨report, job, hrun, hnames⟩ :=
    Session.exists_of_trace (n := 10) (f := fun (_, _, _, done) => done.session.scopes.definitions)
      (show (Session.trace 10 lone (.file "main.s") ⟨.start {}, .ofCapacity none⟩).map _ = some [] by
        decide +kernel)
  have hpath := Session.assembleToPath_of_assemble hrun htarget rfl (hunread _ · htarget)
  have hcode : (run ["--symbols", "main.s", "main.s"] lone).code = 0 := by
    have hfile : lone.isFile "main.s" = true := by decide +kernel
    have hname : Path.withExtension "main.s" "bin" = "main.bin" := by decide +kernel
    have hsame : lone.samePlace "main.s" "main.bin" = false := by decide +kernel
    have hafter := (Disk.target_write_iff htarget (by decide) job.writer.written).mpr hlisting
    rw [run, hparse]
    show (execute lone "main.s" _).code = 0
    rw [execute, hfile]
    show (assembleToFile lone "main.s" (Path.withExtension "main.s" "bin") {} _).code = 0
    rw [hname, assembleToFile, hsame, hpath, if_neg (by simp)]
    show (writeListing (some "main.s") job.session _).code = 0
    rw [writeListing, hafter]
    rfl
  obtain ⟨-, -, hends⟩ := run_leaves_sources _ lone _ _ hparse
  obtain ⟨session, m, hassembled, hdisk⟩ := hends rfl hcode
  rcases hdisk with ⟨hnone, -⟩ | ⟨path, place, hsymbols, hplace, hdisk⟩
  · cases hnone
  cases hsymbols
  rw [hlisting] at hplace
  cases hplace
  have hsession : session.scopes.definitions = [] := by
    cases hassembled with
    | printed image run =>
      rw [himage] at image
      cases image
    | written image apart target first second =>
      rw [himage] at image
      cases image
      rcases Session.secondPassOn_eq_assemble first target (hunread _ · target) with
        hsecond | ⟨⟨error, job', hfailed⟩, -⟩
      · cases hrun.symm.trans (hsecond.symm.trans second)
        exact hnames
      · rw [hfailed] at second
        cases second
  have hentries : session.scopes.entries = [] := by
    have hperm := session.scopes.perm_entries
    rw [hsession] at hperm
    exact hperm.eq_nil
  have hkept : m.entry? ["main.s"] = lone.entry? ["main.s"] := by
    refine hassembled.imaged.entry fun path goal hpath hgoal hfile => ?_
    rw [himage] at hpath
    cases hpath
    rw [htarget] at hgoal
    cases hgoal
    exact absurd (hsole _ hfile) (by decide)
  have hend : m.Terminal ["main.s"] := by
    have hold : lone.entry? ["main.s"] = some (.file (Byte.ofChars " nop\n".toList)) := by
      decide +kernel
    exact .inr ⟨_, hkept.trans hold⟩
  rw [hdisk, Disk.entry?_write hend, Session.listing, hentries]
  rfl

end CommandLine

end Assembler6502
