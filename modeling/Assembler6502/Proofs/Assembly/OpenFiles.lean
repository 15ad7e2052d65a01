/-
What a step does to the files that are open.

A step reads on in the current file, and then opens another file inside it or
closes it, or leaves it at that.  The source of a file stays the same while it
is open.  So what holds of every file that is opened, and is kept by reading on,
holds of every open file at every time.

* **`Moves`** — what can become of the open files in a step;
* **`step_moves`** — nothing else becomes of them;
* **`Moves.all`** — what is kept by reading on is kept by steps.
-/
import Assembler6502.Assembly.Run

namespace Assembler6502

/-- All open files. -/
def OpenFiles.readers (files : OpenFiles) : List Reader :=
  files.current :: files.outer

namespace Assembly

/-- What can become of the open files in a step. -/
inductive Moves (disk : Disk) (files files' : OpenFiles) : Prop where
  | read {cursor : Cursor} (forward : cursor.rest <:+ files.current.cursor.rest)
      (current : files'.current = ⟨files.current.source, cursor⟩)
      (outer : files'.outer = files.outer)
  | enter {cursor : Cursor} {path : String} {source : Source}
      (forward : cursor.rest <:+ files.current.cursor.rest)
      (found : openSource disk path = .ok source) (current : files'.current = .start source)
      (outer : files'.outer = ⟨files.current.source, cursor⟩ :: files.outer)
  | leave (left : files.outer = files'.readers)

/-- A property that files have when they are opened, and that reading on keeps. -/
structure ReaderInvariant (disk : Disk) (P : Reader → Prop) : Prop where
  read : ∀ {reader : Reader} {cursor : Cursor}, P reader →
    cursor.rest <:+ reader.cursor.rest → P ⟨reader.source, cursor⟩
  opened : ∀ {path : String} {source : Source}, openSource disk path = .ok source →
    P (.start source)

variable {disk : Disk} {setting : Setting} {files files' : OpenFiles} {s t : State}
  {P : Reader → Prop}

/-- What is kept by reading on is kept by steps. -/
theorem Moves.all (h : Moves disk files files') (hP : ReaderInvariant disk P)
    (hall : ∀ reader ∈ files.readers, P reader) : ∀ reader ∈ files'.readers, P reader := by
  obtain ⟨hcurrent, houter⟩ := List.forall_mem_cons.mp hall
  cases h with
  | read forward current outer =>
    refine List.forall_mem_cons.mpr ⟨?_, ?_⟩
    · rw [current]
      exact hP.read hcurrent forward
    · rw [outer]
      exact houter
  | enter forward found current outer =>
    refine List.forall_mem_cons.mpr ⟨?_, ?_⟩
    · rw [current]
      exact hP.opened found
    · rw [outer]
      exact List.forall_mem_cons.mpr ⟨hP.read hcurrent forward, houter⟩
  | leave left =>
    rw [← left]
    exact houter

/-! ### Steps -/

theorem readers_of_pop? (h : files.pop? = some files') : files.outer = files'.readers := by
  unfold OpenFiles.pop? at h
  split at h
  · cases h
  · next houter =>
    cases h
    exact houter

/-- Reading a statement reads on in the current file. -/
theorem reads_on {r : Reading}
    (h : (Statement.parse (s.context setting)).after s.reading = r) :
    r.source = s.files.current.source ∧ r.cursor.rest <:+ s.files.current.cursor.rest := by
  subst h
  exact ⟨Statement.parse_source _ s.reading, Statement.parse_suffix _ s.reading⟩

theorem moves_of_read {r : Reading} {cursor : Cursor}
    (hr : (Statement.parse (s.context setting)).after s.reading = r)
    (hcursor : cursor.rest <:+ r.cursor.rest) (hcurrent : files.current = ⟨r.source, cursor⟩)
    (houter : files.outer = s.files.outer) : Moves disk s.files files := by
  obtain ⟨hsource, hforward⟩ := reads_on hr
  exact .read (hcursor.trans hforward) (hsource ▸ hcurrent) houter

theorem step_moves (h : step setting s = .next t) : Moves setting.disk s.files t.files := by
  unfold step at h
  split at h
  · -- the end of a file
    unfold endFile at h
    split at h
    · next files hpop =>
      cases h
      exact .leave (readers_of_pop? hpop)
    · cases h
  · -- a statement that is skipped
    next r hparse =>
    cases h
    exact moves_of_read (Parser.after_of_ok hparse) r.cursor.recover_suffix rfl rfl
  · -- a statement that is carried out
    next statement r _ _ hparse =>
    rw [carryOut_files h]
    rcases execute_files setting statement (s.resume r) with hk | ⟨path, source, room, hopen, hk⟩
    · rw [hk]
      exact moves_of_read (Parser.after_of_ok hparse) (List.suffix_refl _) rfl rfl
    · rw [hk]
      obtain ⟨hsource, hforward⟩ := reads_on (Parser.after_of_ok hparse)
      exact .enter hforward hopen rfl (hsource ▸ rfl)
  · -- a statement that cannot be read
    next d r hparse =>
    split at h
    · cases h
    · cases h
      exact moves_of_read (Parser.after_of_error hparse) r.cursor.recover_suffix rfl rfl

end Assembly

end Assembler6502
