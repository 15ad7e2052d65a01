/-
Runs that write to a file.

A run with the image in a file creates the file between the passes, so that no
file is touched unless the first pass succeeds, and removes it if it fails later.
The second pass reads the source files again while the image comes to its file.
If this file is none of them, the second pass does what it does on the disk as it
was, up to a write that fails, and the file holds what a run with the image in
memory writes.

* **`ReadsSource`** — the files that a run reads as source;
* **`secondPassOn_of_unread`** — the second pass does not see the new file;
* **`Disk.Removable`** — a path that names a file itself, where it can be removed;
* **`assembleToPath_atomic`** — what a run leaves on the disk.
-/
import Assembler6502.Proofs.Assembly.SourceFiles
import Assembler6502.Proofs.Session.Capacity

namespace Assembler6502

open Assembler6502.Assembly

/-! ### Files that are written -/

theorem Device.holds_of_part {d : Device} {bytes part : List UInt8} (h : d.holds bytes = true)
    (hpart : part <+: bytes) : d.holds part = true := by
  unfold holds at h ⊢
  split at h
  · rfl
  · exact decide_eq_true (Nat.le_trans hpart.length_le (of_decide_eq_true h))

namespace Disk

variable {d after : Disk} {path : String} {place : Place} {bytes written : List UInt8}

theorem store_eq_ok (h : d.store place bytes = .ok after) :
    (d.device place).holds bytes = true ∧ after = d.write place bytes := by
  unfold store at h
  split at h
  · next hholds =>
    cases h
    exact ⟨hholds, rfl⟩
  · cases h

theorem store_of_holds (h : (d.device place).holds bytes = true) :
    d.store place bytes = .ok (d.write place bytes) :=
  if_pos h

/-- If all bytes fit in the end, those that come earlier do. -/
theorem receive_of_holds (h : (d.device place).holds bytes = true) (hpart : written <+: bytes)
    (steps held : Nat) : ∃ during, d.receive place steps held written = .ok during := by
  have harriving : (d.device place).arriving steps held written <+: written :=
    ⟨_, List.take_append_drop _ written⟩
  exact ⟨_, store_of_holds (Device.holds_of_part h (harriving.trans hpart))⟩

theorem touched_receive (h : d.Terminal place) {steps held : Nat} {during : Disk}
    (hreceive : d.receive place steps held written = .ok during) :
    Touched (d.SameFile place) during d := by
  obtain ⟨-, rfl⟩ := store_eq_ok hreceive
  exact touched_write h _

/-- The path names the file at a place itself, and the directory lets its name be removed. -/
structure Removable (d : Disk) (path : String) (place : Place) : Prop where
  linkFree : ∀ name text, d.nameOf path = .ok name → d.entry? name ≠ some (.link text)
  unlocked : place.dropLast ∉ d.locked

/-- The file at a place has no other name. -/
theorem sole_of_nodes
    (h : ∀ node ∈ d.nodes.pairs, node.2 = .file (d.numberAt place) → node.1 = place) (p : Place)
    (hp : d.SameFile place p) : p = place := by
  rcases hp with rfl | ⟨number, hplace, hp⟩
  · rfl
  · rw [node?_of_not (isDirectory_of_node? hp)] at hp
    refine h (p, .file number) (FiniteMap.mem_pairs_iff.mpr hp) ?_
    rw [numberAt_of_file hplace]

theorem Removable.nameOf (h : d.Removable path place) (htarget : d.target path = .ok place) :
    d.nameOf path = .ok place := by
  obtain ⟨⟨name, hname⟩, hlead, -⟩ := target_eq_ok_iff.mp htarget
  have hplace := lead_of_nameOf hname fun text => h.linkFree name text hname
  rw [hlead] at hplace
  cases hplace
  exact hname

end Disk

namespace Session

variable {disk : Disk} {input output : String} {s t : Session} {place : Place} {start : UInt16}
  {failure : Failure}

/-! ### The passes -/

/-- A run with the image in a file reads the file at a place as source: the input, or a file that is
included in one of the passes. -/
inductive ReadsSource (disk : Disk) (input output : String) (s : Session) (place : Place) : Prop
    where
  | main {entry : Disk.Entry} (found : disk.locate input = .ok (place, entry))
  | first {source : Source} (opened : openSource disk input = .ok source)
      (reads : Reads (s.setting .first) (fun _ _ _ => .ok disk) 0 0 (s.reset.initial source none)
        place)
  | second {start : UInt16} {t : Session} {created : Place} {source : Source} {emitter : Emitter}
      (passed : firstPass disk (.file input) s = .ok start t)
      (target : disk.target output = .ok created)
      (begun : Emitter.begin start (.start t.options.format (.ofCapacity none)) = .ok () emitter)
      (opened : openSource disk input = .ok source)
      (reads : Reads (t.setting .second) (disk.receive created) 0
        (heldAfter 0 emitter.writer.written.length) (t.initial source (some emitter)) place)

theorem assembleToPath_of_failed (h : firstPass disk (.file input) s = .error failure t) :
    assembleToPath input output (s, disk) = .error failure (t, disk) := by
  rw [assembleToPath, h]

theorem assembleToPath_of_target {error : FileError}
    (hfirst : firstPass disk (.file input) s = .ok start t)
    (htarget : disk.target output = .error error) :
    assembleToPath input output (s, disk) = .error (.stopped (.file error)) (t, disk) := by
  unfold assembleToPath
  simp only [hfirst, htarget]

/-- The ways in which a run can end that comes to the second pass. -/
theorem assembleToPath_cases (hfirst : firstPass disk (.file input) s = .ok start t)
    (htarget : disk.target output = .ok place) :
    (∃ report job, secondPassOn (disk.receive place) (.file input) start ⟨t, .ofCapacity none⟩ =
        .ok report job ∧ (disk.device place).holds job.writer.written = true ∧
      assembleToPath input output (s, disk) =
        .ok report (job.session, disk.write place job.writer.written)) ∨
    ∃ failure u written, assembleToPath input output (s, disk) =
      .error failure (u, disk.abandon output place written) := by
  unfold assembleToPath
  simp only [hfirst, htarget]
  cases secondPassOn (disk.receive place) (.file input) start ⟨t, .ofCapacity none⟩ with
  | error failure job => exact .inr ⟨failure, job.session, job.writer.written, rfl⟩
  | ok report job =>
    dsimp only
    cases hstore : disk.store place job.writer.written with
    | error error => exact .inr ⟨_, job.session, job.writer.written, rfl⟩
    | ok after =>
      obtain ⟨hholds, rfl⟩ := Disk.store_eq_ok hstore
      exact .inl ⟨report, job, rfl, hholds, rfl⟩

/-- An image that holds the header alone. -/
def headed (start : UInt16) (f : Format) : Emitter :=
  ⟨f, ⟨f.header start, none⟩, 0⟩

theorem begin_ofCapacity (start : UInt16) (f : Format) :
    Emitter.begin start (.start f (.ofCapacity none)) = .ok () (headed start f) :=
  rfl

theorem written_prefix_getD (u : State) (e : Emitter) :
    u.written <+: (u.image.getD e).writer.written := by
  unfold State.written
  cases u.image with
  | none => exact ⟨_, rfl⟩
  | some e' => exact List.prefix_rfl

section

variable (hfirst : firstPass disk (.file input) s = .ok start t)
  (htarget : disk.target output = .ok place)
  (hunread : ∀ p, disk.SameFile place p → ¬ ReadsSource disk input output s p)

include htarget hunread

/-- The second pass reads the input again. -/
theorem openSource_during {source : Source} (hsource : openSource disk input = .ok source)
    {steps held : Nat} {written : List UInt8} {during : Disk}
    (hduring : disk.receive place steps held written = .ok during) :
    openSource during input = .ok source := by
  obtain ⟨-, -, hend, -⟩ := Disk.target_eq_ok_iff.mp htarget
  have hways := (Disk.touched_receive hend hduring).symm
  unfold openSource at hsource ⊢
  cases hread : disk.read input with
  | error error =>
    rw [hread] at hsource
    cases hsource
  | ok bytes =>
    obtain ⟨p, hlocate⟩ := Disk.read_eq_ok_iff.mp hread
    have hduring := hways.locate (fun hp => hunread p hp (.main hlocate)) hlocate
    rw [← hsource, hread, Disk.read_eq_ok_iff.mpr ⟨p, hduring⟩]

include hfirst

/-- The second pass does not see the new file.  It ends as on the disk as it was, or with a write that
fails because not all of the image fits. -/
theorem secondPassOn_of_unread :
    secondPassOn (disk.receive place) (.file input) start ⟨t, .ofCapacity none⟩ =
        secondPass disk (.file input) start ⟨t, .ofCapacity none⟩ ∨
      (∃ error job, secondPassOn (disk.receive place) (.file input) start ⟨t, .ofCapacity none⟩ =
        .error (.stopped (.file error)) job) ∧
      (disk.device place).holds
        (received (secondPass disk (.file input) start ⟨t, .ofCapacity none⟩)) = false := by
  obtain ⟨source, -, hinput, -⟩ := firstPass_eq_ok hfirst
  have hsource : openSource disk input = .ok source := hinput
  have hbegin := begin_ofCapacity start t.options.format
  have hreceived : received (secondPass disk (.file input) start ⟨t, .ofCapacity none⟩) = _ :=
    received_secondPass hbegin hinput
  generalize hwhole : secondPass disk (.file input) start ⟨t, .ofCapacity none⟩ = whole
  -- a write fails only if the whole image does not fit
  have hfull : ∀ {written steps held error}, written <+: received whole →
      disk.receive place steps held written = .error error →
      (disk.device place).holds (received whole) = false := by
    intro written steps held error hpart herror
    refine Bool.eq_false_iff.mpr fun hholds => ?_
    obtain ⟨during, hduring⟩ := Disk.receive_of_holds hholds hpart steps held
    rw [hduring] at herror
    cases herror
  unfold secondPassOn
  dsimp only
  rw [hbegin]
  dsimp only
  cases hstart : disk.receive place 0 _ (headed start t.options.format).writer.written with
  | error error =>
    refine .inr ⟨⟨error, _, rfl⟩, hfull ?_ hstart⟩
    rw [← hwhole]
    exact header_received disk (.file input) hbegin
  | ok during =>
    have hagain := openSource_during htarget hunread hsource hstart
    have hopened : (Except.ok during >>= fun disk => Input.source disk (.file input) :
        Except FileError Source) = .ok source := hagain
    rw [hopened]
    dsimp only
    obtain ⟨-, -, hend, -⟩ := Disk.target_eq_ok_iff.mp htarget
    rcases runOn_of_unread (fun _ _ _ _ hreceive => Disk.touched_receive hend hreceive)
      fun p hp hreads => hunread p hp (.second hfirst htarget hbegin hsource hreads) with
      hrun | ⟨j, held, error, u, hreaches, herror, hrun⟩
    · refine .inl ?_
      rw [show runOn (t.setting .second) (disk.receive place) 0 _ _ = _ from hrun, ← hwhole,
        secondPass_eq, hbegin, hinput]
      rfl
    · rw [show runOn (t.setting .second) (disk.receive place) 0 _ _ = _ from hrun]
      refine .inr ⟨⟨error, _, rfl⟩, hfull ?_ herror⟩
      rw [← hwhole, hreceived, leaves_runPass]
      exact (written_of_reaches hreaches).trans (written_prefix_getD _ _)

end

/-! ### Runs -/

/-- A run that comes to the second pass goes like the run with the image in memory, up to a write that
fails because not all of the image fits. -/
theorem secondPassOn_eq_assemble (hfirst : firstPass disk (.file input) s = .ok start t)
    (htarget : disk.target output = .ok place)
    (hunread : ∀ p, disk.SameFile place p → ¬ ReadsSource disk input output s p) :
    secondPassOn (disk.receive place) (.file input) start ⟨t, .ofCapacity none⟩ =
        assemble disk (.file input) ⟨s, .ofCapacity none⟩ ∨
      (∃ error job, secondPassOn (disk.receive place) (.file input) start ⟨t, .ofCapacity none⟩ =
        .error (.stopped (.file error)) job) ∧
      (disk.device place).holds
        (received (assemble disk (.file input) ⟨s, .ofCapacity none⟩)) = false := by
  rw [assemble, hfirst]
  exact secondPassOn_of_unread hfirst htarget hunread

/-- If the run with the image in memory succeeds and the file can hold the image, the run with the
image in a file succeeds. -/
theorem assembleToPath_of_assemble {report : Report} {job : Job}
    (hrun : assemble disk (.file input) ⟨s, .ofCapacity none⟩ = .ok report job)
    (htarget : disk.target output = .ok place)
    (hholds : (disk.device place).holds job.writer.written = true)
    (hunread : ∀ p, disk.SameFile place p → ¬ ReadsSource disk input output s p) :
    assembleToPath input output (s, disk) =
      .ok report (job.session, disk.write place job.writer.written) := by
  cases hfirst : firstPass disk (.file input) s with
  | error failure t =>
    rw [assemble, hfirst] at hrun
    cases hrun
  | ok start t =>
    rcases secondPassOn_eq_assemble hfirst htarget hunread with hsecond | ⟨-, hfull⟩
    · rw [hrun] at hsecond
      unfold assembleToPath
      simp only [hfirst, htarget, hsecond, Disk.store_of_holds hholds]
    · rw [hrun] at hfull
      exact absurd hholds (Bool.eq_false_iff.mp hfull)

/-- A run that fails before the second pass leaves the disk alone. -/
theorem assembleToPath_of_early
    (h : (∃ failure t, firstPass disk (.file input) s = .error failure t) ∨
      ∃ error, disk.target output = .error error) :
    ∃ failure t, assembleToPath input output (s, disk) = .error failure (t, disk) := by
  cases hfirst : firstPass disk (.file input) s with
  | error failure t => exact ⟨failure, t, assembleToPath_of_failed hfirst⟩
  | ok start t =>
    rcases h with ⟨failure, u, hfailed⟩ | ⟨error, htarget⟩
    · rw [hfirst] at hfailed
      cases hfailed
    · exact ⟨_, t, assembleToPath_of_target hfirst htarget⟩

theorem firstPass_of_unreadable {error : FileError} (h : disk.read input = .error error) :
    firstPass disk (.file input) s = .error (.stopped (.file error)) s.reset := by
  have hsource : Input.source disk (.file input) = .error error := by
    rw [Input.source, openSource, h]
    rfl
  rw [firstPass, hsource]

/-- The passes of a run that succeeds. -/
theorem assembleToPath_eq_ok {report : Report} {after : Disk}
    (h : assembleToPath input output (s, disk) = .ok report (t, after)) :
    ∃ start u place job, firstPass disk (.file input) s = .ok start u ∧
      disk.target output = .ok place ∧
      secondPassOn (disk.receive place) (.file input) start ⟨u, .ofCapacity none⟩ =
        .ok report job ∧
      (disk.device place).holds job.writer.written = true ∧
      t = job.session ∧ after = disk.write place job.writer.written := by
  cases hfirst : firstPass disk (.file input) s with
  | error failure u =>
    rw [assembleToPath_of_failed hfirst] at h
    cases h
  | ok start u =>
    cases htarget : disk.target output with
    | error error =>
      rw [assembleToPath_of_target hfirst htarget] at h
      cases h
    | ok place =>
      rcases assembleToPath_cases hfirst htarget with ⟨report', job, hsecond, hholds, hrun⟩ |
        ⟨failure, v, written, hrun⟩
      · rw [hrun] at h
        cases h
        exact ⟨start, u, place, job, rfl, rfl, hsecond, hholds, rfl, rfl⟩
      · rw [hrun] at h
        cases h

/-- The file holds what was written. -/
theorem read_written (h : disk.target output = .ok place) (bytes : List UInt8) :
    (disk.write place bytes).read output = .ok bytes := by
  obtain ⟨-, hlead, hend, -⟩ := Disk.target_eq_ok_iff.mp h
  have hlead' := (Disk.sameWays_write hend bytes).lead hlead
  exact Disk.read_eq_ok_iff.mpr
    ⟨place, Disk.locate_eq_ok_iff.mpr ⟨hlead', Disk.entry?_write hend bytes⟩⟩

/-- A run with the image in a file of which no name is read as source.  If it succeeds, the file holds
the bytes that the run with the image in memory writes, and no other file is changed; it succeeds if
that run does, the file can be created and can hold these bytes.  If the input cannot be read, the
first pass fails or the file cannot be created, the disk is left as it is.  If the run fails later,
because of the source or because of a write, at most this file is changed and the name that the path
ends with; if this name is no link and can be removed, the path leads to no file then, and no other
file is changed. -/
theorem assembleToPath_atomic (disk : Disk) (input output : String) (s : Session)
    (hapart : ∀ place p, disk.target output = .ok place → disk.SameFile place p →
      ¬ ReadsSource disk input output s p) :
    (∀ report t after, assembleToPath input output (s, disk) = .ok report (t, after) →
      ∃ writer place, assemble disk (.file input) ⟨s, .ofCapacity none⟩ = .ok report ⟨t, writer⟩ ∧
        disk.target output = .ok place ∧ after.read output = .ok writer.written ∧
        disk.SameBut (disk.SameFile place) after) ∧
    (∀ report job place, assemble disk (.file input) ⟨s, .ofCapacity none⟩ = .ok report job →
      disk.target output = .ok place → (disk.device place).holds job.writer.written = true →
      ∃ after, assembleToPath input output (s, disk) = .ok report (job.session, after)) ∧
    ((∃ error, disk.read input = .error error) ∨
        (∃ failure t, firstPass disk (.file input) s = .error failure t) ∨
        (∃ error, disk.target output = .error error) →
      ∃ failure t, assembleToPath input output (s, disk) = .error failure (t, disk)) ∧
    (∀ start t place failure u after, firstPass disk (.file input) s = .ok start t →
      disk.target output = .ok place →
      assembleToPath input output (s, disk) = .error failure (u, after) →
      disk.SameBut (fun p => disk.SameFile place p ∨ disk.nameOf output = .ok p) after ∧
      (disk.Removable output place →
        after.locate output = .error .notFound ∧ disk.SameBut (disk.SameFile place) after)) := by
  refine ⟨?_, ?_, ?_, ?_⟩
  · intro report t after h
    obtain ⟨start, u, place, job, hfirst, htarget, hsecond, -, rfl, rfl⟩ := assembleToPath_eq_ok h
    rcases secondPassOn_eq_assemble hfirst htarget (hapart place · htarget) with
      hsame | ⟨⟨error, job', hfailed⟩, -⟩
    · exact ⟨job.writer, place, hsame.symm.trans hsecond, htarget, read_written htarget _,
        disk.sameBut_write place _⟩
    · rw [hsecond] at hfailed
      cases hfailed
  · intro report job place hrun htarget hholds
    exact ⟨_, assembleToPath_of_assemble hrun htarget hholds (hapart place · htarget)⟩
  · rintro (⟨error, hread⟩ | hearly)
    · exact assembleToPath_of_early (.inl ⟨_, _, firstPass_of_unreadable hread⟩)
    · exact assembleToPath_of_early hearly
  · intro start t place failure u after hfirst htarget h
    obtain ⟨-, -, hend, -⟩ := Disk.target_eq_ok_iff.mp htarget
    rcases assembleToPath_cases hfirst htarget with ⟨report, job, -, -, hrun⟩ |
      ⟨failure', v, written, hrun⟩
    · rw [hrun] at h
      cases h
    · rw [hrun] at h
      cases h
      have hsame := Disk.sameBut_abandon hend output written
      refine ⟨hsame, fun hremovable => ⟨?_, hsame.mono ?_⟩⟩
      · exact Disk.locate_abandon hend (hremovable.nameOf htarget) hremovable.unlocked written
      · rintro p (hp | hp)
        · exact hp
        · rw [hremovable.nameOf htarget] at hp
          cases hp
          exact .inl rfl

/-- The places that a run reads as source, if it comes to the second pass and each pass ends within
`n` steps. -/
def sourcesRead (n : Nat) (disk : Disk) (input output : String) (s : Session) :
    Option (List Place) := do
  let (main, _) ← (disk.locate input).toOption
  let source ← (openSource disk input).toOption
  let first ← placesRead (s.setting .first) (fun _ _ _ => .ok disk) n 0 0
    (s.reset.initial source none)
  let (_, middle) ← s.reset.tracePass n disk source .first none
  let place ← (disk.target output).toOption
  let t := s.between middle
  let emitter := headed middle.start.toUInt32.toUInt16 t.options.format
  let second ← placesRead (t.setting .second) (disk.receive place) n 0
    (heldAfter 0 emitter.writer.written.length) (t.initial source (some emitter))
  return main :: (first ++ second)

theorem toOption_eq_some {ε α : Type} {x : Except ε α} {a : α} (h : x.toOption = some a) :
    x = .ok a := by
  cases x with
  | error e => cases h
  | ok b =>
    cases h
    rfl

theorem mem_sourcesRead {n : Nat} {places : List Place}
    (h : sourcesRead n disk input output s = some places)
    (hreads : ReadsSource disk input output s place) : place ∈ places := by
  unfold sourcesRead at h
  obtain ⟨⟨main, entry⟩, hmain, h⟩ := Option.bind_eq_some_iff.mp h
  obtain ⟨source, hsource, h⟩ := Option.bind_eq_some_iff.mp h
  obtain ⟨first, hplaces, h⟩ := Option.bind_eq_some_iff.mp h
  obtain ⟨⟨vs, middle⟩, htrace, h⟩ := Option.bind_eq_some_iff.mp h
  obtain ⟨target, htarget, h⟩ := Option.bind_eq_some_iff.mp h
  obtain ⟨second, hplaces', h⟩ := Option.bind_eq_some_iff.mp h
  cases h
  have hsource := toOption_eq_some hsource
  have hfirst : firstPass disk (.file input) s = _ :=
    firstPass_of_runPass hsource (tracePass_eq_some htrace).2
  cases hreads with
  | main found =>
    rw [toOption_eq_some hmain] at found
    cases found
    exact List.mem_cons_self
  | first opened reads =>
    rw [hsource] at opened
    cases opened
    exact List.mem_cons_of_mem _ (List.mem_append_left _ (mem_placesRead hplaces reads))
  | second passed created begun opened reads =>
    rw [hfirst] at passed
    cases passed
    rw [toOption_eq_some htarget] at created
    cases created
    rw [hsource] at opened
    cases opened
    rw [begin_ofCapacity] at begun
    cases begun
    exact List.mem_cons_of_mem _ (List.mem_append_right _ (mem_placesRead hplaces' reads))

theorem unread_of_sourcesRead {n : Nat} (htarget : disk.target output = .ok place)
    (hsole : ∀ p, disk.SameFile place p → p = place)
    (h : (sourcesRead n disk input output s).map (fun places => places.contains place) = some false)
    (place' p : Place) (htarget' : disk.target output = .ok place')
    (hfile : disk.SameFile place' p) : ¬ ReadsSource disk input output s p := by
  rw [htarget] at htarget'
  cases htarget'
  obtain ⟨places, hplaces, hout⟩ := Option.map_eq_some_iff.mp h
  intro hreads
  have hmem := mem_sourcesRead hplaces hreads
  rw [hsole p hfile, ← List.contains_iff_mem, hout] at hmem
  cases hmem

/-- A file that includes another one next to it, and an older image. -/
def project : Disk :=
  (((Disk.empty []).addFile "src/main.s" (Byte.ofChars " .include \"part.s\"\n rts\n".toList)).addFile
    "src/part.s" (Byte.ofChars " lda #1\n".toList)).addFile "out.bin" [0xff]

/-- The same files, where no file can hold more than two bytes that are written. -/
def crowded : Disk :=
  { project with device := fun _ => { room := some 2 } }

/-- The older image is replaced, or it is removed if the new one does not fit. -/
theorem assembleToPath_atomic_project :
    (∃ report t after,
      assembleToPath "src/main.s" "out.bin" (Session.start {}, project) = .ok report (t, after) ∧
        after.read "out.bin" = .ok [0xa9, 0x01, 0x60]) ∧
    ∃ failure t after,
      assembleToPath "src/main.s" "out.bin" (Session.start {}, crowded) = .error failure (t, after) ∧
        after.locate "out.bin" = .error .notFound ∧ crowded.SameBut (· = ["out.bin"]) after := by
  have hsole : ∀ disk ∈ [project, crowded], ∀ node ∈ disk.nodes.pairs,
      node.2 = .file (disk.numberAt ["out.bin"]) → node.1 = ["out.bin"] := by decide +kernel
  have htarget : ∀ disk ∈ [project, crowded], disk.target "out.bin" = .ok ["out.bin"] := by
    decide +kernel
  have hread : ∀ disk ∈ [project, crowded],
      (sourcesRead 10 disk "src/main.s" "out.bin" (.start {})).map
        (fun places => places.contains ["out.bin"]) = some false := by decide +kernel
  have himage : ∀ disk ∈ [project, crowded],
      (trace 10 disk (.file "src/main.s") ⟨.start {}, .ofCapacity none⟩).map
        (fun (_, _, _, done) => done.writer.written) = some [0xa9, 0x01, 0x60] := by decide +kernel
  have hatomic := fun disk (hdisk : disk ∈ [project, crowded]) =>
    assembleToPath_atomic disk "src/main.s" "out.bin" (.start {}) <|
      unread_of_sourcesRead (htarget disk hdisk) (Disk.sole_of_nodes (hsole disk hdisk))
        (hread disk hdisk)
  constructor
  · have hdisk : project ∈ [project, crowded] := List.mem_cons_self
    obtain ⟨hok, hruns, -, -⟩ := hatomic project hdisk
    obtain ⟨report, ⟨t, writer⟩, hrun, hwritten⟩ := exists_of_trace (himage project hdisk)
    obtain ⟨after, hafter⟩ := hruns report ⟨t, writer⟩ _ hrun (htarget project hdisk) rfl
    obtain ⟨writer', place, hmemory, -, hfile, -⟩ := hok report t after hafter
    rw [hrun] at hmemory
    cases hmemory
    rw [show writer.written = _ from hwritten] at hfile
    exact ⟨report, t, after, hafter, hfile⟩
  · have hdisk : crowded ∈ [project, crowded] := List.mem_cons_of_mem _ List.mem_cons_self
    obtain ⟨hok, -, -, hfails⟩ := hatomic crowded hdisk
    obtain ⟨report, ⟨t, writer⟩, hrun, hwritten⟩ := exists_of_trace (himage crowded hdisk)
    have hname : crowded.nameOf "out.bin" = .ok ["out.bin"] := by decide +kernel
    have hold : crowded.entry? ["out.bin"] = some (.file [0xff]) := by decide +kernel
    have hremovable : crowded.Removable "out.bin" ["out.bin"] := by
      refine ⟨fun name text hlast => ?_, by decide +kernel⟩
      rw [hname] at hlast
      cases hlast
      simp [hold]
    cases hfirst : firstPass crowded (.file "src/main.s") (.start {}) with
    | error failure t =>
      rw [assemble, hfirst] at hrun
      cases hrun
    | ok start u =>
      cases hend : assembleToPath "src/main.s" "out.bin" (Session.start {}, crowded) with
      | error failure left =>
        obtain ⟨hgone, hsame⟩ := (hfails start u _ failure left.1 left.2 hfirst
          (htarget crowded hdisk) hend).2 hremovable
        exact ⟨failure, left.1, left.2, rfl, hgone,
          hsame.mono (Disk.sole_of_nodes (hsole crowded hdisk))⟩
      | ok report' left =>
        obtain ⟨writer', place, hmemory, -, hfile, -⟩ := hok report' left.1 left.2 hend
        obtain ⟨_, _, place', job, _, htarget', _, hholds, _, hafter⟩ := assembleToPath_eq_ok hend
        rw [hrun] at hmemory
        cases hmemory
        rw [show left.2 = _ from hafter, read_written htarget',
          show writer.written = _ from hwritten] at hfile
        rw [Except.ok.inj hfile] at hholds
        cases hholds

end Session

end Assembler6502
