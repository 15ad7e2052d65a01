/-
How long a pass can take.

Every step reads on in a file or closes one, and a file that is opened is opened
behind the statement that includes it.  What is left to read in the open files,
the outermost first, are the digits of a number, in a base that is larger than
any file.  Each step makes this number smaller, also where files include each
other in circles, since only so many files can be open.

* **`Left.number`** — what is left to read as one number;
* **`Disk.longest`** — the length of the longest file;
* **`number_lt_of_step`** — a step makes the number smaller;
* **`run_ends`** — a pass takes at most as many steps as the number is at its
  start.
-/
import Mathlib.Algebra.Group.Nat.Defs
import Assembler6502.Proofs.Assembly.OpenFiles
import Assembler6502.Proofs.Assembly.Visits
import Assembler6502.Proofs.Disk.Changes
import Assembler6502.Session

namespace Assembler6502

/-! ### Files of a disk -/

/-- The length of the longest file. -/
def Disk.longest (disk : Disk) : Nat :=
  (disk.contents.pairs.map fun file => file.2.length).foldr max 0

theorem Disk.length_bytes_le (disk : Disk) (number : Nat) :
    (disk.bytes number).length ≤ disk.longest := by
  unfold Disk.bytes
  cases h : disk.contents.get? number with
  | none => exact Nat.zero_le _
  | some bytes =>
    have hmem : (number, bytes) ∈ disk.contents.pairs := FiniteMap.mem_pairs_iff.mpr h
    unfold longest
    generalize disk.contents.pairs = contents at hmem ⊢
    induction contents with
    | nil => cases hmem
    | cons file rest ih =>
      rw [List.map_cons, List.foldr_cons]
      rcases List.mem_cons.mp hmem with rfl | hmem
      · exact Nat.le_max_left _ _
      · exact Nat.le_trans (ih hmem) (Nat.le_max_right _ _)

theorem Disk.length_read_le {disk : Disk} {path : String} {bytes : List UInt8}
    (h : disk.read path = .ok bytes) : bytes.length ≤ disk.longest := by
  obtain ⟨place, hlocate⟩ := read_eq_ok_iff.mp h
  obtain ⟨number, -, rfl⟩ := exists_node_of_file (locate_eq_ok_iff.mp hlocate).2
  exact disk.length_bytes_le number

namespace Assembly

theorem length_openSource_le {disk : Disk} {path : String} {source : Source}
    (h : openSource disk path = .ok source) : source.bytes.length ≤ disk.longest := by
  unfold openSource at h
  cases hread : disk.read path with
  | error e =>
    rw [hread] at h
    cases h
  | ok bytes =>
    rw [hread] at h
    cases h
    exact Disk.length_read_le hread

/-! ### What is left as a number -/

namespace Left

variable {base n : Nat}

/-- What is left as one number with the digits of a base. -/
def number (base : Nat) : (n : Nat) → Left n → Nat
  | 0, _ => 0
  | n + 1, (a, rest) => a * base ^ n + number base n rest

/-- All numbers are digits of a base. -/
def Digits (base : Nat) : (n : Nat) → Left n → Prop
  | 0, _ => True
  | n + 1, (a, rest) => a < base ∧ Digits base n rest

theorem first_digit {a k x : Nat} (h : x < k) : a * k + x < (a + 1) * k := by
  rw [Nat.add_mul, Nat.one_mul]
  exact Nat.add_lt_add_left h _

theorem number_lt_pow {x : Left n} (h : Digits base n x) : number base n x < base ^ n := by
  induction n with
  | zero => exact Nat.one_pos
  | succ n ih =>
    obtain ⟨a, rest⟩ := x
    calc a * base ^ n + number base n rest
      _ < (a + 1) * base ^ n := first_digit (ih h.2)
      _ ≤ base * base ^ n := Nat.mul_le_mul_right _ h.1
      _ = base ^ (n + 1) := by rw [Nat.pow_succ, Nat.mul_comm]

/-- The first number that differs decides between two numbers too. -/
theorem number_lt {x y : Left n} (hx : Digits base n x) (h : Less n x y) :
    number base n x < number base n y := by
  induction n with
  | zero => exact h.elim
  | succ n ih =>
    obtain ⟨a, rest⟩ := x
    obtain ⟨b, rest'⟩ := y
    cases h with
    | left _ _ hab =>
      -- the other digits together are less than one in this place
      calc a * base ^ n + number base n rest
        _ < (a + 1) * base ^ n := first_digit (number_lt_pow hx.2)
        _ ≤ b * base ^ n := Nat.mul_le_mul_right _ hab
        _ ≤ b * base ^ n + number base n rest' := Nat.le_add_right _ _
    | right _ hrest => exact Nat.add_lt_add_left (ih hx.2 hrest) _

theorem digits_ofList (hbase : 0 < base) {numbers : List Nat} (h : ∀ a ∈ numbers, a < base) :
    Digits base n (ofList n numbers) := by
  induction n generalizing numbers with
  | zero => trivial
  | succ n ih =>
    cases numbers with
    | nil => exact ⟨hbase, ih nofun⟩
    | cons a rest =>
      obtain ⟨ha, hrest⟩ := List.forall_mem_cons.mp h
      exact ⟨ha, ih hrest⟩

end Left

/-! ### Steps and passes -/

variable {setting : Setting} {s t : State} {longest : Nat}

/-- No open file has more left than the longest file. -/
def Within (longest : Nat) (s : State) : Prop :=
  ∀ reader ∈ s.files.readers, reader.cursor.rest.length ≤ longest

theorem readerInvariant_length (h : setting.disk.longest ≤ longest) :
    ReaderInvariant setting.disk fun reader => reader.cursor.rest.length ≤ longest where
  read hreader hforward := Nat.le_trans hforward.length_le hreader
  opened hopen := Nat.le_trans (length_openSource_le hopen) h

/-- What is left to read as one number. -/
def State.number (longest : Nat) (s : State) : Nat :=
  Left.number (longest + 2) includeLimit s.left

theorem digits_left (h : Within longest s) : Left.Digits (longest + 2) includeLimit s.left := by
  refine Left.digits_ofList (by omega) fun a ha => ?_
  -- the order of the digits does not matter here
  have hreader : ∃ reader ∈ s.files.readers, reader.left = a := by
    simpa [OpenFiles.readers, or_comm, eq_comm] using ha
  obtain ⟨reader, hreader, rfl⟩ := hreader
  have hlength := h reader hreader
  unfold Reader.left
  omega

/-- A step makes what is left smaller. -/
theorem number_lt_of_step (hlongest : setting.disk.longest ≤ longest) (h : Within longest s)
    (hstep : step setting s = .next t) : Within longest t ∧ t.number longest < s.number longest := by
  have ht : Within longest t := (step_moves hstep).all (readerInvariant_length hlongest) h
  exact ⟨ht, Left.number_lt (digits_left ht) (step_decreases hstep)⟩

/-- As many steps as the number that is left are enough. -/
theorem exists_walk (hlongest : setting.disk.longest ≤ longest) {n : Nat} (h : Within longest s)
    (hn : s.number longest < n) : ∃ x, walk setting n s = some x := by
  induction n generalizing s with
  | zero => omega
  | succ n ih =>
    cases hstep : step setting s with
    | next t =>
      obtain ⟨ht, hlt⟩ := number_lt_of_step hlongest h hstep
      obtain ⟨x, hx⟩ := ih ht (by omega)
      simp [walk, hstep, hx]
    | finished t => simp [walk, hstep]
    | stopped fault t => simp [walk, hstep]

/-! ### Statements -/

/-- A statement takes a byte at least, also when it cannot be read, unless the input has ended. -/
theorem exists_taken (c : Context) (r : Reading) :
    (∃ r', Statement.parse c r = .ok .endOfInput r') ∨
      ∃ taken, taken ≠ [] ∧
        r.cursor.rest = taken ++ ((Statement.parse c).after r).cursor.rest := by
  refine (Statement.parse_length_lt c r).imp_right fun hlt => ?_
  obtain ⟨taken, htaken⟩ := Statement.parse_suffix c r
  refine ⟨taken, ?_, htaken.symm⟩
  rintro rfl
  rw [← htaken, List.nil_append] at hlt
  omega

theorem length_readers_le (files : OpenFiles) : files.readers.length ≤ includeLimit :=
  files.bounded

/-- When as many files are open as can be, no other one is opened. -/
theorem execute_include_of_full (h : s.files.readers.length = includeLimit) (name : String) :
    execute setting (.includeFile name) s =
      .error (.diagnostic (s.diagnostic (.includeTooDeep includeLimit))) s := by
  have hfull : ¬ s.files.outer.length + 1 < includeLimit := by
    rw [OpenFiles.readers, List.length_cons] at h
    omega
  simp only [execute, executeInclude, Bind.bind, EStateM.bind, get, getThe, MonadStateOf.get,
    get_eq, hfull, dite_false, fail]

/-- A pass over a source ends, whatever files include each other: it takes at most so many steps as
there are lists of as many numbers as files can be open, each of them at most the length of the
longest file and one.  Every statement takes a byte of the file that it is read from, also when it
cannot be read, recovering from an error goes back over none, and no file is opened when as many
are open as can be. -/
theorem run_ends (setting : Setting) (source : Source) (s : State)
    (hs : s.files = .start source) :
    walk setting ((max source.bytes.length setting.disk.longest + 2) ^ includeLimit) s =
      some (visits setting s, run setting s) ∧
    (∀ (c : Context) (r : Reading), (∃ r', Statement.parse c r = .ok .endOfInput r') ∨
      ((Statement.parse c).after r).source = r.source ∧
        ∃ taken, taken ≠ [] ∧
          r.cursor.rest = taken ++ ((Statement.parse c).after r).cursor.rest) ∧
    (∀ r : Reading, r.recover.source = r.source ∧
      ∃ skipped, r.cursor.rest = skipped ++ r.recover.cursor.rest) ∧
    ∀ t : State, t.files.readers.length ≤ includeLimit ∧
      (t.files.readers.length = includeLimit → ∀ name, execute setting (.includeFile name) t =
        .error (.diagnostic (t.diagnostic (.includeTooDeep includeLimit))) t) := by
  refine ⟨?_, fun c r => ?_, fun r => ?_, fun t => ?_⟩
  · have hwithin : Within (max source.bytes.length setting.disk.longest) s := by
      intro reader hreader
      rw [hs] at hreader
      cases List.mem_singleton.mp hreader
      exact Nat.le_max_left _ _
    obtain ⟨⟨vs, result⟩, hwalk⟩ := exists_walk (Nat.le_max_right _ _) hwithin
      (Left.number_lt_pow (digits_left hwithin))
    obtain ⟨rfl, rfl⟩ := walk_eq_some hwalk
    exact hwalk
  · exact (exists_taken c r).imp_right fun htaken => ⟨Statement.parse_source c r, htaken⟩
  · obtain ⟨skipped, hskipped⟩ := r.cursor.recover_suffix
    exact ⟨rfl, skipped, hskipped.symm⟩
  · exact ⟨length_readers_le t.files, execute_include_of_full⟩

/-- Two files that include each other. -/
def circle : Disk :=
  ((Disk.empty []).addFile "left" (Byte.ofChars ".include \"right\"\n".toList)).addFile "right"
    (Byte.ofChars ".include \"left\"\n".toList)

def circleSetting : Setting := (Session.start {}).setting .first circle

def circleStart : State :=
  (Session.start {}).initial ⟨"main", none, Byte.ofChars ".include \"left\"\n".toList⟩ none

/-- A pass over files in a circle opens as many of them as it can, and ends with one error. -/
theorem run_ends_circle :
    walk circleSetting (19 ^ includeLimit) circleStart =
      some (visits circleSetting circleStart, run circleSetting circleStart) ∧
    noted (run circleSetting circleStart) = [.statement (.includeTooDeep includeLimit)] := by
  have hnoted : (walk circleSetting 32 circleStart).map (fun x => noted x.2) =
      some [.statement (.includeTooDeep includeLimit)] := by
    decide +kernel
  obtain ⟨⟨vs, result⟩, hwalk, hresult⟩ := Option.map_eq_some_iff.mp hnoted
  obtain ⟨-, hrun⟩ := walk_eq_some hwalk
  refine ⟨?_, hrun ▸ hresult⟩
  have hends := (run_ends circleSetting _ circleStart rfl).1
  rwa [show max _ circleSetting.disk.longest = 17 by decide +kernel] at hends

end Assembly

end Assembler6502
