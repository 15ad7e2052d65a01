/-
Running a pass.

A pass reads and carries out one statement after the other until the main file
has ended.  A statement that fails is noted, and the pass goes on: behind the
line if the statement could not be read, behind the statement if it could not
be carried out.  Only a fatal fault stops it.

* **`Assembly.step`** — one statement, or the end of a file;
* **`Assembly.run`** — steps until the pass ends;
* **`Assembly.runOn`** — the same while the disk changes, for a pass whose image
  is written to a file through a buffer (**`Assembly.heldBehind`**);
* **`step_decreases`** — every step reads on in a file or closes one, so a pass
  ends, whatever files include each other.

Design notes.  What is left to read is a number for each open file.  Numbers of
outer files weigh more, and a file that is not open counts less than one at its
end.  Opening a file reads the statement that includes it, so the including
file has less left, whatever the file holds.
-/
import Assembler6502.Assembly
import Assembler6502.Statement.Progress

namespace Assembler6502

/-- One more than the bytes left, so that an open file counts more than none. -/
def Reader.left (r : Reader) : Nat :=
  r.cursor.rest.length + 1

namespace Assembly

/-- Where a step leads. -/
inductive Step where
  | next (s : State)
  | finished (s : State)
  | stopped (fault : Fault) (s : State)

/-- What the statement at this point of a pass is read against. -/
def State.context (setting : Setting) (s : State) : Context :=
  ⟨setting.pass, s.address, s.anonymous.level s.scopes.depth, setting.characters⟩

/-- The state at the end of the main file.  The first pass notes a scope that is still open. -/
def State.finish (setting : Setting) (s : State) : State :=
  if setting.pass = .first ∧ s.scopes.depth ≠ 0 then s.note (s.diagnostic .unclosedScope) else s

/-- The end of the current file. -/
def endFile (setting : Setting) (s : State) : Step :=
  match s.files.pop? with
  | some files => .next { s with files }
  | none => .finished (s.finish setting)

/-- Carries out a statement that was read. -/
def carryOut (setting : Setting) (statement : Statement) (s : State) : Step :=
  match execute setting statement s with
  | .ok _ s => .next s
  | .error (.diagnostic d) s => if d.isFatal then .stopped (.diagnostic d) s else .next (s.note d)
  | .error (.file error) s => .stopped (.file error) s

/-- Reads a statement and carries it out. -/
def step (setting : Setting) (s : State) : Step :=
  match Statement.parse (s.context setting) s.reading with
  | .ok .endOfInput r => endFile setting (s.resume r)
  | .ok .undefined r =>
    let s := s.resume r
    .next (s.note (s.diagnostic .undefinedStatement)).recover
  | .ok statement r => carryOut setting statement (s.resume r)
  | .error d r =>
    if d.isFatal then .stopped (.diagnostic d) (s.resume r)
    else .next ((s.resume r).note d).recover

/-! ### Every pass ends -/

/-- As many numbers as files can be open, the outermost file first. -/
def Left : Nat → Type
  | 0 => Unit
  | n + 1 => Nat × Left n

/-- The first number that differs decides. -/
def Left.Less : (n : Nat) → Left n → Left n → Prop
  | 0 => fun _ _ => False
  | n + 1 => Prod.Lex (· < ·) (Left.Less n)

theorem Left.wellFounded (n : Nat) : WellFounded (Left.Less n) := by
  induction n with
  | zero => exact ⟨fun _ => ⟨_, fun _ h => h.elim⟩⟩
  | succ n ih => exact (Prod.lex ⟨_, Nat.lt_wfRel.wf⟩ ⟨_, ih⟩).wf

instance (n : Nat) : WellFoundedRelation (Left n) :=
  ⟨Left.Less n, Left.wellFounded n⟩

/-- Numbers for the open files, zeros for the others. -/
def Left.ofList : (n : Nat) → List Nat → Left n
  | 0, _ => ()
  | n + 1, [] => (0, Left.ofList n [])
  | n + 1, a :: rest => (a, Left.ofList n rest)

theorem Left.ofList_lt {n a b : Nat} (outer rest rest' : List Nat) (hn : outer.length < n)
    (h : b < a) :
    Left.Less n (Left.ofList n (outer ++ b :: rest))
      (Left.ofList n (outer ++ a :: rest')) := by
  induction outer generalizing n with
  | nil =>
    cases n with
    | zero => exact absurd hn (Nat.not_lt_zero _)
    | succ n => exact Prod.Lex.left _ _ h
  | cons c outer ih =>
    cases n with
    | zero => exact absurd hn (Nat.not_lt_zero _)
    | succ n => exact Prod.Lex.right _ (ih (Nat.lt_of_succ_lt_succ hn))

theorem Left.ofList_concat_zero (n : Nat) (outer : List Nat) :
    Left.ofList n outer = Left.ofList n (outer ++ [0]) := by
  induction n generalizing outer with
  | zero => rfl
  | succ n ih =>
    cases outer with
    | nil => rfl
    | cons c outer => exact congrArg (Prod.mk c) (ih outer)

/-- What is left to read in the open files. -/
def State.left (s : State) : Left includeLimit :=
  Left.ofList includeLimit (s.files.outer.reverse.map Reader.left ++ [s.files.current.left])

theorem State.left_lt_of_current {s t : State} (ho : t.files.outer = s.files.outer)
    (hc : t.files.current.left < s.files.current.left) :
    Left.Less includeLimit t.left s.left := by
  unfold State.left
  rw [ho]
  exact Left.ofList_lt _ _ _ (by simpa using s.files.bounded) hc

theorem State.left_lt_of_push {s t : State} {reader : Reader}
    {h : s.files.outer.length + 1 < includeLimit} {u : State} (ho : s.files.outer = u.files.outer)
    (hc : s.files.current.left < u.files.current.left) (ht : t.files = s.files.push reader h) :
    Left.Less includeLimit t.left u.left := by
  unfold State.left
  rw [ht, ← ho]
  simp only [OpenFiles.push, List.reverse_cons, List.map_append, List.map_cons, List.map_nil,
    List.append_assoc, List.cons_append, List.nil_append]
  exact Left.ofList_lt _ _ _ (by simpa using s.files.bounded) hc

theorem State.left_lt_of_pop {files : OpenFiles} {t u : State}
    (ho : files.outer = u.files.outer) (h : files.pop? = some t.files) :
    Left.Less includeLimit t.left u.left := by
  unfold OpenFiles.pop? at h
  split at h
  · cases h
  · next reader outer hr =>
    have hu : u.files.outer = reader :: outer := ho.symm.trans hr
    have hb := u.files.bounded
    rw [hu, List.length_cons] at hb
    unfold State.left
    rw [← Option.some.inj h, hu, Left.ofList_concat_zero]
    have hl := Left.ofList_lt (n := includeLimit)
      (outer.reverse.map Reader.left ++ [reader.left]) [] []
      (by simpa using hb) (Nat.succ_pos u.files.current.cursor.rest.length)
    simpa [Reader.left] using hl

/-! ### Statements and open files -/

variable {α β : Type}

/-- The state that an action leaves behind. -/
def after (a : Action α) (s : State) : State :=
  match a s with
  | .ok _ t => t
  | .error _ t => t

/-- Actions that open and close no files, note no errors and write to the image at its end only.
They fail with errors of the source. -/
inductive Plain : {α : Type} → Action α → Prop where
  | pure {α : Type} (a : α) : Plain (Pure.pure a)
  | get : Plain (MonadState.get : Action State)
  | fail {error : StatementError} (source : error.isInternal = false) : Plain (Assembly.fail error)
  | modify {f : State → State} (files : ∀ s, (f s).files = s.files)
      (errors : ∀ s, (f s).errors = s.errors) (image : ∀ s, (f s).image = s.image) :
      Plain (modify f : Action Unit)
  | emit (output : Format → List UInt8) (count : Nat) :
      Plain (Assembly.emit (do Emitter.put (output (← MonadState.get).format) count))
  | bind {α β : Type} {a : Action α} {f : α → Action β} (first : Plain a)
      (rest : ∀ x, Plain (f x)) : Plain (a >>= f)

theorem after_bind {a : Action α} {f : α → Action β} {s t : State} {x : α} (h : a s = .ok x t) :
    after (a >>= f) s = after (f x) t := by
  show after (EStateM.bind a f) s = _
  simp only [after, EStateM.bind, h]

theorem after_bind_error {a : Action α} {f : α → Action β} {s t : State} {fault : Fault}
    (h : a s = .error fault t) : after (a >>= f) s = t := by
  show after (EStateM.bind a f) s = _
  simp only [after, EStateM.bind, h]

namespace Plain

theorem files {a : Action α} (h : Plain a) (s : State) : (after a s).files = s.files := by
  induction h generalizing s with
  | pure | get | fail => rfl
  | modify files _ _ => exact files s
  | emit output count =>
    unfold after Assembly.emit
    cases s.image with
    | none => rfl
    | some emitter =>
      cases h : (do Emitter.put (output (← MonadState.get).format) count :
        EStateM FileError Emitter Unit) emitter <;> simp [h]
  | @bind α β a f _ _ ihfirst ihrest =>
    have hfirst := ihfirst s
    cases ha : a s with
    | ok x t =>
      rw [after, ha] at hfirst
      rw [after_bind ha]
      exact (ihrest x t).trans hfirst
    | error fault t =>
      rw [after, ha] at hfirst
      rw [after_bind_error ha]
      exact hfirst

theorem advance (count : Nat) : Plain (advance count) :=
  modify (fun _ => rfl) (fun _ => rfl) fun _ => rfl

theorem placeLabel (name : String) : Plain (placeLabel name) := by
  refine bind get fun s => ?_
  split
  · exact fail rfl
  · exact fail rfl
  · exact modify (fun _ => rfl) (fun _ => rfl) fun _ => rfl

theorem executeLabel (pass : Pass) (name : String) : Plain (executeLabel pass name) := by
  unfold Assembly.executeLabel
  split
  · exact placeLabel name
  · exact pure ()

theorem executeInstruction (pass : Pass) (i : Instruction) : Plain (executeInstruction pass i) := by
  refine bind get fun s => ?_
  split
  · next hcode => exact fail (Instruction.isInternal_of_encode hcode)
  · exact bind (emit (fun f => f.instruction s.address _) _) fun _ => advance _

theorem executeData (bytes : List UInt8) : Plain (executeData bytes) :=
  bind get fun s => bind (emit (fun f => f.data s.address bytes) _) fun _ => advance _

theorem executeOrigin (pass : Pass) (origin : Int32) : Plain (executeOrigin pass origin) := by
  refine bind get fun s => ?_
  split
  · split
    · exact fail rfl
    · exact modify (fun _ => rfl) (fun _ => rfl) fun _ => rfl
  · split
    · exact fail rfl
    · split
      · exact bind (emit (fun f => f.fill _) _) fun _ =>
          modify (fun _ => rfl) (fun _ => rfl) fun _ => rfl
      · exact modify (fun _ => rfl) (fun _ => rfl) fun _ => rfl

theorem executeAssign (pass : Pass) (name : String) (value : Int32) (relocatable : Bool) :
    Plain (executeAssign pass name value relocatable) := by
  refine bind (modify (fun _ => rfl) (fun _ => rfl) fun _ => rfl) fun _ => ?_
  split
  · exact modify (fun _ => rfl) (fun _ => rfl) fun _ => rfl
  · exact pure ()

theorem executeOpenScope (pass : Pass) (name : String) : Plain (executeOpenScope pass name) := by
  refine bind (executeLabel pass name) fun _ => bind get fun s => ?_
  split
  · exact fail rfl
  · exact modify (fun _ => rfl) (fun _ => rfl) fun _ => rfl

theorem executeCloseScope : Plain executeCloseScope := by
  refine bind get fun s => ?_
  split
  · exact fail rfl
  · exact modify (fun _ => rfl) (fun _ => rfl) fun _ => rfl

theorem executeAnonymousLabel (pass : Pass) : Plain (executeAnonymousLabel pass) := by
  unfold Assembly.executeAnonymousLabel
  split
  · exact modify (fun _ => rfl) (fun _ => rfl) fun _ => rfl
  · exact pure ()

/-- All statements but inclusions. -/
theorem execute (setting : Setting) {statement : Statement}
    (h : ∀ name, statement ≠ .includeFile name) : Plain (execute setting statement) := by
  cases statement with
  | includeFile name => exact absurd rfl (h name)
  | instruction i => exact executeInstruction setting.pass i
  | origin address => exact executeOrigin setting.pass address
  | anonymousLabel => exact executeAnonymousLabel setting.pass
  | bytes data => exact executeData data
  | words data => exact executeData (wordBytes data)
  | label name => exact executeLabel setting.pass name
  | assign name value relocatable => exact executeAssign setting.pass name value relocatable
  | openScope name => exact executeOpenScope setting.pass name
  | closeScope => exact executeCloseScope
  | undefined => exact fail rfl
  | endOfInput => exact pure ()

end Plain

theorem get_eq (s : State) : (EStateM.get : Action State) s = .ok s s := rfl

theorem set_eq (s t : State) : (EStateM.set t : Action PUnit) s = .ok ⟨⟩ t := rfl

/-- An inclusion opens the included file, or it fails and leaves the state alone. -/
theorem executeInclude_cases (disk : Disk) (name : String) (s : State) :
    (∃ path source h, openSource disk path = .ok source ∧
      executeInclude disk name s = .ok () { s with files := s.files.push (.start source) h }) ∨
    ∃ error, error.isInternal = false ∧
      executeInclude disk name s = .error (.diagnostic (s.diagnostic error)) s := by
  by_cases h : s.files.outer.length + 1 < includeLimit
  · cases hf : findInclude disk s.files.current.source name with
    | none =>
      refine .inr ⟨.cannotOpen name, rfl, ?_⟩
      simp only [executeInclude, Bind.bind, EStateM.bind, get, getThe, MonadStateOf.get,
        get_eq, h, dite_true, hf, fail]
    | some path =>
      cases hs : openSource disk path with
      | error _ =>
        refine .inr ⟨.cannotOpen name, rfl, ?_⟩
        simp only [executeInclude, Bind.bind, EStateM.bind, get, getThe, MonadStateOf.get,
          get_eq, h, dite_true, hf, hs, fail]
      | ok source =>
        refine .inl ⟨path, source, h, hs, ?_⟩
        simp only [executeInclude, Bind.bind, EStateM.bind, get, getThe, MonadStateOf.get,
          get_eq, h, dite_true, hf, hs, set, MonadStateOf.set, set_eq]
  · refine .inr ⟨.includeTooDeep includeLimit, rfl, ?_⟩
    simp only [executeInclude, Bind.bind, EStateM.bind, get, getThe, MonadStateOf.get,
      get_eq, h, dite_false, fail]

/-- A statement opens at most one file and closes none. -/
theorem execute_files (setting : Setting) (statement : Statement) (s : State) :
    (after (execute setting statement) s).files = s.files ∨
      ∃ path source h, openSource setting.disk path = .ok source ∧
        (after (execute setting statement) s).files = s.files.push (.start source) h := by
  by_cases hinclude : ∃ name, statement = .includeFile name
  · obtain ⟨name, rfl⟩ := hinclude
    rcases executeInclude_cases setting.disk name s with ⟨path, source, h, hs, hok⟩ | ⟨e, -, herror⟩
    · refine .inr ⟨path, source, h, hs, ?_⟩
      rw [after, execute, hok]
    · refine .inl ?_
      rw [after, execute, herror]
  · exact .inl ((Plain.execute setting fun name hname => hinclude ⟨name, hname⟩).files s)

/-! ### Steps -/

theorem carryOut_files {setting : Setting} {statement : Statement} {s t : State}
    (h : carryOut setting statement s = .next t) :
    t.files = (after (execute setting statement) s).files := by
  unfold carryOut at h
  unfold after
  split at h
  · next he =>
    cases h
    rw [he]
  · next he =>
    rw [he]
    split at h <;> cases h
    rfl
  · cases h

theorem left_lt_of_carryOut {setting : Setting} {statement : Statement} {s t u : State}
    (ho : s.files.outer = u.files.outer) (hc : s.files.current.left < u.files.current.left)
    (h : carryOut setting statement s = .next t) : Left.Less includeLimit t.left u.left := by
  have hfiles := carryOut_files h
  rcases execute_files setting statement s with hk | ⟨_, _, _, -, hk⟩
  · rw [hk] at hfiles
    exact State.left_lt_of_current (by rw [hfiles, ho]) (by rw [hfiles]; exact hc)
  · exact State.left_lt_of_push ho hc (hfiles.trans hk)

theorem State.left_recover_lt {s u : State} (ho : s.files.outer = u.files.outer)
    (hc : s.files.current.left < u.files.current.left) :
    Left.Less includeLimit s.recover.left u.left :=
  State.left_lt_of_current ho
    (Nat.lt_of_le_of_lt
      (Nat.succ_le_succ (Cursor.recover_suffix s.files.current.cursor).length_le) hc)

/-- Every step reads on in the current file, or opens a file behind what it read, or closes the
current file. -/
theorem step_decreases {setting : Setting} {s t : State} (h : step setting s = .next t) :
    Left.Less includeLimit t.left s.left := by
  have hread := Statement.parse_length_lt (s.context setting) s.reading
  unfold Parser.after at hread
  unfold step at h
  split at h
  · unfold endFile at h
    split at h
    · next hf =>
      cases h
      exact State.left_lt_of_pop rfl hf
    · cases h
  · next hr =>
    cases h
    rw [hr] at hread
    exact State.left_recover_lt rfl (Nat.succ_lt_succ (hread.resolve_left (by rintro ⟨_, ⟨⟩⟩)))
  · next statement r hend _ hr =>
    rw [hr] at hread
    refine left_lt_of_carryOut (s := s.resume r) rfl
      (Nat.succ_lt_succ (hread.resolve_left ?_)) h
    rintro ⟨_, he⟩
    cases he
    exact hend rfl
  · next hr =>
    rw [hr] at hread
    split at h
    · cases h
    · cases h
      exact State.left_recover_lt rfl (Nat.succ_lt_succ (hread.resolve_left (by rintro ⟨_, ⟨⟩⟩)))

/-- Steps until the main file has ended or a fault stops the pass. -/
def run (setting : Setting) (s : State) : EStateM.Result Fault State Unit :=
  match _h : step setting s with
  | .next t => run setting t
  | .finished t => .ok () t
  | .stopped fault t => .error fault t
termination_by s.left
decreasing_by exact step_decreases _h

section

variable {setting : Setting} {s t : State}

theorem run_of_next (h : step setting s = .next t) : run setting s = run setting t := by
  rw [run]
  split <;> simp_all

theorem run_of_finished (h : step setting s = .finished t) : run setting s = .ok () t := by
  rw [run]
  split <;> simp_all

theorem run_of_stopped {fault : Fault} (h : step setting s = .stopped fault t) :
    run setting s = .error fault t := by
  rw [run]
  split <;> simp_all

end

/-! ### Passes on a disk that changes -/

/-- The bytes that are gathered in a buffer before they are handed on to a file. -/
def bufferSize : Nat := 8192

/-- The bytes held back in the buffer when `count` bytes have been written behind those that it
held. -/
def heldAfter (held count : Nat) : Nat :=
  if bufferSize ≤ count then 0
  else if held + count ≤ bufferSize then held + count
  else count

/-- Whether the next step of a second pass fills a gap with zeros. -/
def fillsGap (setting : Setting) (s : State) : Bool :=
  match Statement.parse (s.context setting) s.reading with
  | .ok (.origin address) _ =>
    s.placed && s.address ≤ address && s.image.any fun e => e.format ≠ .screen
  | _ => false

/-- The bytes held back behind a step from `s` to `t`.  A gap is filled past the buffer, which is
emptied for that. -/
def heldBehind (setting : Setting) (s t : State) (held : Nat) : Nat :=
  if fillsGap setting s then 0 else heldAfter held (t.written.length - s.written.length)

/-- The disk in the course of a pass, by the number of steps, the number of bytes held back and the
bytes written to the image.  A write that fails stops the pass. -/
abbrev Course := (steps held : Nat) → List UInt8 → Except FileError Disk

/-- Steps from step `k` on, each on the disk as it is by then. -/
def runOn (setting : Disk → Setting) (course : Course) (k held : Nat) (s : State) :
    EStateM.Result Fault State Unit :=
  match course k held s.written with
  | .error error => .error (.file error) s
  | .ok disk =>
    match _h : step (setting disk) s with
    | .next t => runOn setting course (k + 1) (heldBehind (setting disk) s t held) t
    | .finished t => .ok () t
    | .stopped fault t => .error fault t
termination_by s.left
decreasing_by exact step_decreases _h

/-- On a disk that stays the same. -/
theorem runOn_still (setting : Disk → Setting) (disk : Disk) (k held : Nat) (s : State) :
    runOn setting (fun _ _ _ => .ok disk) k held s = run (setting disk) s := by
  generalize hstill : (fun _ _ _ => .ok disk : Course) = course
  fun_induction runOn setting course k held s with subst hstill
  | case1 k held s error hcourse => cases hcourse
  | case2 k held s disk' hcourse t hstep ih =>
    cases hcourse
    exact ih.trans (run_of_next hstep).symm
  | case3 k held s disk' hcourse t hstep =>
    cases hcourse
    exact (run_of_finished hstep).symm
  | case4 k held s disk' hcourse fault t hstep =>
    cases hcourse
    exact (run_of_stopped hstep).symm

end Assembly

end Assembler6502
