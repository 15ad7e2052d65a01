/-
Passes that go on alike.

Two passes whose states statements cannot tell apart take steps that are alike,
as long as they read the same statements.  They may have other files open and
other images, and the places of their errors may differ.

* **`Alike`** — two states that are alike, with errors that are alike;
* **`Statement.Both`** — what two readings come to;
* **`step_alike`** — statements that are read alike lead on alike;
* **`step_same`** — a step in a file that both passes read;
* **`step_abreast`** — a step of two passes over the same files.

Design notes.  `I` relates the images, `D` the errors and `F` the open files.  Of
errors that are alike only the cause has to be the same, which decides whether
they stop the pass.
-/
import Mathlib.Data.List.Forall2
import Assembler6502.Proofs.Assembly.Twins

namespace Assembler6502

/-- Two errors that differ in their places at most. -/
def Diagnostic.SameCause (d e : Diagnostic) : Prop :=
  d.cause = e.cause

theorem Diagnostic.SameCause.isFatal {d e : Diagnostic} (h : d.SameCause e) :
    d.isFatal = e.isFatal := by
  rw [Diagnostic.isFatal, Diagnostic.isFatal, show d.cause = e.cause from h]

/-- Two faults that are alike. -/
inductive Fault.Alike (D : Diagnostic → Diagnostic → Prop) : Fault → Fault → Prop where
  | diagnostic {d e : Diagnostic} (alike : D d e) : Fault.Alike D (.diagnostic d) (.diagnostic e)
  | file (error : FileError) : Fault.Alike D (.file error) (.file error)

/-- What two readings come to: the same statement, or errors that are alike.  `N` relates the
readings with which the passes go on. -/
inductive Statement.Both (D : Diagnostic → Diagnostic → Prop) (N : Reading → Reading → Prop) :
    EStateM.Result Diagnostic Reading Statement → EStateM.Result Diagnostic Reading Statement →
      Prop where
  | read {statement : Statement} {r r' : Reading} (ending : statement ≠ .endOfInput)
      (undefined : statement ≠ .undefined) (next : N r r') :
      Both D N (.ok statement r) (.ok statement r')
  | undefined {r r' : Reading} (place : ∀ error, D (r.diagnostic error) (r'.diagnostic error))
      (next : N r.recover r'.recover) : Both D N (.ok .undefined r) (.ok .undefined r')
  | failed {d e : Diagnostic} {r r' : Reading} (alike : D d e) (next : N r.recover r'.recover) :
      Both D N (.error d r) (.error e r')

namespace Assembly

variable {setting setting' : Setting} {s t : State} {I : Option Emitter → Option Emitter → Prop}
  {D : Diagnostic → Diagnostic → Prop} {F : OpenFiles → OpenFiles → Prop}

/-! ### States -/

/-- Two states alike but for the open files; `I` relates the images and `D` the errors. -/
structure Alike (I : Option Emitter → Option Emitter → Prop) (D : Diagnostic → Diagnostic → Prop)
    (s t : State) : Prop where
  twin : Twin I s t
  errors : List.Forall₂ D s.errors t.errors

theorem Alike.note {d e : Diagnostic} (h : Alike I D s t) (hde : D d e) :
    Alike I D (s.note d) (t.note e) where
  twin := ⟨h.twin.scopes, h.twin.anonymous, h.twin.address, h.twin.start, h.twin.placed,
    h.twin.assigned, h.twin.image⟩
  errors := List.rel_append h.errors (.cons hde .nil)

theorem Alike.resume {r r' : Reading} (h : Alike I D s t) (hscopes : r.scopes = r'.scopes) :
    Alike I D (s.resume r) (t.resume r') where
  twin := ⟨hscopes, h.twin.anonymous, h.twin.address, h.twin.start, h.twin.placed,
    h.twin.assigned, h.twin.image⟩
  errors := h.errors

theorem Alike.withFiles (h : Alike I D s t) (files files' : OpenFiles) :
    Alike I D { s with files } { t with files := files' } where
  twin := ⟨h.twin.scopes, h.twin.anonymous, h.twin.address, h.twin.start, h.twin.placed,
    h.twin.assigned, h.twin.image⟩
  errors := h.errors

theorem Alike.context (h : Alike I D s t) : s.context setting = t.context setting := by
  rw [State.context, State.context, h.twin.address, h.twin.anonymous, h.twin.scopes]

/-- Errors of the statements that were read last are alike. -/
def PlacedAlike (D : Diagnostic → Diagnostic → Prop) (s t : State) : Prop :=
  ∀ error, D (s.diagnostic error) (t.diagnostic error)

theorem Alike.finish (h : Alike I D s t) (hplace : PlacedAlike D s t) :
    Alike I D (s.finish setting) (t.finish setting) := by
  unfold State.finish
  rw [h.twin.scopes]
  split
  · exact h.note (hplace _)
  · exact h

/-! ### Steps -/

/-- Where steps of both passes lead. -/
inductive StepAlike (I : Option Emitter → Option Emitter → Prop)
    (D : Diagnostic → Diagnostic → Prop) (F : OpenFiles → OpenFiles → Prop) :
    Step → Step → Prop where
  | next {s t : State} (alike : Alike I D s t) (files : F s.files t.files) :
      StepAlike I D F (.next s) (.next t)
  | finished {s t : State} (alike : Alike I D s t) : StepAlike I D F (.finished s) (.finished t)
  | stopped {f g : Fault} {s t : State} (fault : f.Alike D g) (alike : Alike I D s t) :
      StepAlike I D F (.stopped f s) (.stopped g t)

/-- How two passes end. -/
inductive EndAlike (I : Option Emitter → Option Emitter → Prop)
    (D : Diagnostic → Diagnostic → Prop) :
    EStateM.Result Fault State Unit → EStateM.Result Fault State Unit → Prop where
  | ok {s t : State} (alike : Alike I D s t) : EndAlike I D (.ok () s) (.ok () t)
  | stopped {f g : Fault} {s t : State} (fault : f.Alike D g) (alike : Alike I D s t) :
      EndAlike I D (.error f s) (.error g t)

section

variable (hI : EmitsAlike I) (hD : ∀ {d e : Diagnostic}, D d e → d.SameCause e)

include hD in
/-- A statement that does the same in both states is carried out alike. -/
theorem carryOut_paired {statement : Statement}
    (hpaired : Paired I s t (execute setting statement s) (execute setting' statement t))
    (h : Alike I D s t) (hplace : PlacedAlike D s t) (hfiles : F s.files t.files) :
    StepAlike I D F (carryOut setting statement s) (carryOut setting' statement t) := by
  unfold carryOut
  generalize execute setting statement s = x at hpaired ⊢
  generalize execute setting' statement t = y at hpaired ⊢
  have halike : ∀ {u v : State}, Twin I u v → Keeps s u → Keeps t v →
      Alike I D u v ∧ F u.files v.files := by
    intro u v htwin hu hv
    exact ⟨⟨htwin, by rw [hu.errors, hv.errors]; exact h.errors⟩, by rwa [hu.files, hv.files]⟩
  cases hpaired with
  | ok twin left right =>
    obtain ⟨huv, hF⟩ := halike twin left right
    exact .next huv hF
  | @failed error u v twin left right =>
    obtain ⟨huv, hF⟩ := halike twin left right
    dsimp only
    rw [(hD (hplace error)).isFatal]
    split
    · exact .stopped (.diagnostic (hplace error)) huv
    · exact .next (huv.note (hplace error)) hF
  | full twin left right => exact .stopped (.file _) (halike twin left right).1

/-- A statement that includes nothing does not look at the disk. -/
theorem execute_congr {statement : Statement} (hpass : setting.pass = setting'.pass)
    (hinclude : ∀ name, statement ≠ .includeFile name) :
    execute setting statement = execute setting' statement := by
  cases statement with
  | includeFile name => exact absurd rfl (hinclude name)
  | _ => simp only [execute, hpass]

include hI hD in
/-- A statement that includes nothing is carried out alike. -/
theorem carryOut_alike {statement : Statement} (hpass : setting.pass = setting'.pass)
    (hinclude : ∀ name, statement ≠ .includeFile name) (h : Alike I D s t)
    (hplace : PlacedAlike D s t) (hfiles : F s.files t.files) :
    StepAlike I D F (carryOut setting statement s) (carryOut setting' statement t) := by
  have hpaired := execute_paired hI h.twin setting hinclude
  refine carryOut_paired hD ?_ h hplace hfiles
  rwa [← execute_congr hpass hinclude]

include hD in
/-- Statements that are read alike lead on alike, if they are carried out alike. -/
theorem step_alike {N : Reading → Reading → Prop} (h : Alike I D s t)
    (hboth : Statement.Both D N (Statement.parse (s.context setting) s.reading)
      (Statement.parse (t.context setting') t.reading))
    (hscopes : ∀ r r', N r r' → r.scopes = r'.scopes)
    (hfiles : ∀ r r', N r r' → F (s.resume r).files (t.resume r').files)
    (hcarry : ∀ statement r r', Statement.parse (s.context setting) s.reading = .ok statement r →
      N r r' → StepAlike I D F (carryOut setting statement (s.resume r))
        (carryOut setting' statement (t.resume r'))) :
    StepAlike I D F (step setting s) (step setting' t) := by
  have hrecover : ∀ {d e : Diagnostic} {r r' : Reading}, D d e → N r.recover r'.recover →
      StepAlike I D F (.next ((s.resume r).note d).recover)
        (.next ((t.resume r').note e).recover) := by
    intro d e r r' hde hN
    exact .next ((h.resume (hscopes _ _ hN)).note hde) (hfiles _ _ hN)
  unfold step
  generalize Statement.parse (s.context setting) s.reading = x at hboth hcarry ⊢
  generalize Statement.parse (t.context setting') t.reading = y at hboth ⊢
  cases hboth with
  | @read statement r r' ending undefined next =>
    have hnext := hcarry statement r r' rfl next
    cases statement with
    | endOfInput => exact absurd rfl ending
    | undefined => exact absurd rfl undefined
    | _ => exact hnext
  | undefined place next => exact hrecover (place _) next
  | @failed d e r r' alike next =>
    have hnames : r.scopes = r'.scopes := hscopes r.recover r'.recover next
    dsimp only
    rw [(hD alike).isFatal]
    split
    · exact .stopped (.diagnostic alike) (h.resume hnames)
    · exact hrecover alike next

end

/-! ### Inclusions -/

/-- The source that a line of another one includes. -/
def included? (disk : Disk) (source : Source) (name : String) : Option Source :=
  (findInclude disk source name).bind fun path => (openSource disk path).toOption

theorem included?_congr (disk : Disk) (name : String) {source source' : Source}
    (h : source.path = source'.path) :
    included? disk source name = included? disk source' name := by
  rw [included?, included?, findInclude, findInclude, h]

theorem executeInclude_of_deep {disk : Disk} (name : String)
    (h : ¬ s.files.outer.length + 1 < includeLimit) :
    executeInclude disk name s =
      .error (.diagnostic (s.diagnostic (.includeTooDeep includeLimit))) s := by
  simp only [executeInclude, Bind.bind, EStateM.bind, get, getThe, MonadStateOf.get, get_eq, h,
    dite_false, fail]

theorem executeInclude_of_none {disk : Disk} {name : String}
    (h : s.files.outer.length + 1 < includeLimit)
    (hnone : included? disk s.files.current.source name = none) :
    executeInclude disk name s = .error (.diagnostic (s.diagnostic (.cannotOpen name))) s := by
  unfold included? at hnone
  cases hfind : findInclude disk s.files.current.source name with
  | none =>
    simp only [executeInclude, Bind.bind, EStateM.bind, get, getThe, MonadStateOf.get, get_eq, h,
      dite_true, hfind, fail]
  | some path =>
    rw [hfind] at hnone
    cases hopen : openSource disk path with
    | ok source =>
      rw [Option.bind_some, hopen] at hnone
      cases hnone
    | error error =>
      simp only [executeInclude, Bind.bind, EStateM.bind, get, getThe, MonadStateOf.get, get_eq, h,
        dite_true, hfind, hopen, fail]

theorem executeInclude_of_some {disk : Disk} {name : String} {source : Source}
    (h : s.files.outer.length + 1 < includeLimit)
    (hsome : included? disk s.files.current.source name = some source) :
    executeInclude disk name s = .ok () { s with files := s.files.push (.start source) h } := by
  unfold included? at hsome
  obtain ⟨path, hfind, hopen⟩ := Option.bind_eq_some_iff.mp hsome
  cases hread : openSource disk path with
  | error error =>
    rw [hread] at hopen
    cases hopen
  | ok source' =>
    rw [hread] at hopen
    cases hopen
    simp only [executeInclude, Bind.bind, EStateM.bind, get, getThe, MonadStateOf.get, get_eq, h,
      dite_true, hfind, hread, set, MonadStateOf.set, set_eq]

/-- Both passes include a file, or none of them does. -/
theorem include_alike {name : String} {R : Source → Source → Prop} (h : Alike I D s t)
    (hplace : PlacedAlike D s t)
    (hincluded : Option.Rel R (included? setting.disk s.files.current.source name)
      (included? setting'.disk t.files.current.source name))
    (hdepth : s.files.outer.length = t.files.outer.length) (hfiles : F s.files t.files)
    (hpush : ∀ source source' hs ht, R source source' →
      F (s.files.push (.start source) hs) (t.files.push (.start source') ht)) :
    StepAlike I D F (carryOut setting (.includeFile name) s)
      (carryOut setting' (.includeFile name) t) := by
  have hexecute : ∀ setting u,
      execute setting (.includeFile name) u = executeInclude setting.disk name u :=
    fun _ _ => rfl
  unfold carryOut
  rw [hexecute, hexecute]
  by_cases hs : s.files.outer.length + 1 < includeLimit
  · have ht : t.files.outer.length + 1 < includeLimit := hdepth ▸ hs
    generalize hx : included? setting.disk s.files.current.source name = x at hincluded
    generalize hy : included? setting'.disk t.files.current.source name = y at hincluded
    cases hincluded with
    | none =>
      rw [executeInclude_of_none hs hx, executeInclude_of_none ht hy]
      exact .next (h.note (hplace _)) hfiles
    | some sources =>
      rw [executeInclude_of_some hs hx, executeInclude_of_some ht hy]
      exact .next (h.withFiles _ _) (hpush _ _ hs ht sources)
  · rw [executeInclude_of_deep name hs, executeInclude_of_deep name (hdepth ▸ hs)]
    exact .next (h.note (hplace _)) hfiles

theorem included?_rel (disk : Disk) (name : String) {source source' : Source}
    (h : source.path = source'.path) :
    Option.Rel Eq (included? disk source name) (included? disk source' name) := by
  rw [included?_congr disk name h]
  cases included? disk source' name with
  | none => exact .none
  | some found => exact .some rfl

/-! ### A file that both passes read -/

theorem step_of_endOfInput {r : Reading}
    (h : Statement.parse (s.context setting) s.reading = .ok .endOfInput r) :
    step setting s = endFile setting (s.resume r) := by
  unfold step
  rw [h]

theorem step_of_parse {statement : Statement} {r : Reading}
    (h : Statement.parse (s.context setting) s.reading = .ok statement r)
    (hend : statement ≠ .endOfInput) (hundefined : statement ≠ .undefined) :
    step setting s = carryOut setting statement (s.resume r) := by
  unfold step
  rw [h]
  cases statement with
  | endOfInput => exact absurd rfl hend
  | undefined => exact absurd rfl hundefined
  | _ => rfl

/-- One reading, taken twice. -/
theorem both_self (hrefl : ∀ d, D d d) {x : EStateM.Result Diagnostic Reading Statement}
    (h : ∀ r, x ≠ .ok .endOfInput r) : Statement.Both D Eq x x := by
  cases x with
  | error d r => exact .failed (hrefl d) rfl
  | ok statement r =>
    by_cases hundefined : statement = .undefined
    · subst hundefined
      exact .undefined (fun error => hrefl _) rfl
    · refine .read (fun hend => ?_) hundefined rfl
      subst hend
      exact h r rfl

/-- A step in a file that both passes read at the same place, if all but inclusions do the same in
both.  `hfiles`, `hpush` and `hend` say what becomes of the open files. -/
theorem step_same_paired (hD : ∀ {d e : Diagnostic}, D d e → d.SameCause e)
    (hrefl : ∀ d, D d d) (h : Alike I D s t) (hcurrent : s.files.current = t.files.current)
    (hdepth : s.files.outer.length = t.files.outer.length)
    (hpaired : ∀ statement r, Statement.parse (s.context setting) s.reading = .ok statement r →
      (∀ name, statement ≠ .includeFile name) →
      Paired I (s.resume r) (t.resume r) (execute setting statement (s.resume r))
        (execute setting statement (t.resume r)))
    (hfiles : ∀ r, F (s.resume r).files (t.resume r).files)
    (hpush : ∀ r reader hs ht, F ((s.resume r).files.push reader hs)
      ((t.resume r).files.push reader ht))
    (hend : ∀ r, StepAlike I D F (endFile setting (s.resume r)) (endFile setting (t.resume r))) :
    StepAlike I D F (step setting s) (step setting t) := by
  have hreading : s.reading = t.reading := by
    rw [State.reading, State.reading, hcurrent, h.twin.scopes]
  have hparse : Statement.parse (s.context setting) s.reading =
      Statement.parse (t.context setting) t.reading := by
    rw [hreading, h.context]
  by_cases hending : ∃ r, Statement.parse (s.context setting) s.reading = .ok .endOfInput r
  · obtain ⟨r, hr⟩ := hending
    rw [step_of_endOfInput hr, step_of_endOfInput (hparse ▸ hr)]
    exact hend r
  -- the same reading is taken twice
  · have hboth : Statement.Both D Eq (Statement.parse (s.context setting) s.reading)
        (Statement.parse (t.context setting) t.reading) := by
      rw [← hparse]
      exact both_self hrefl fun r hr => hending ⟨r, hr⟩
    refine step_alike hD h hboth ?_ ?_ ?_
    · rintro r _ rfl
      rfl
    · rintro r _ rfl
      exact hfiles r
    · rintro statement r _ hr rfl
      have hresume : Alike I D (s.resume r) (t.resume r) := h.resume rfl
      have hplace : PlacedAlike D (s.resume r) (t.resume r) := fun error => hrefl _
      by_cases hinclude : ∃ name, statement = .includeFile name
      · obtain ⟨name, rfl⟩ := hinclude
        refine include_alike hresume hplace (included?_rel setting.disk name rfl) hdepth (hfiles r) ?_
        rintro source _ hs ht rfl
        exact hpush r _ hs ht
      · exact carryOut_paired hD (hpaired statement r hr fun name hname => hinclude ⟨name, hname⟩)
          hresume hplace (hfiles r)

/-- A step in a file that both passes read at the same place.  `hfiles`, `hpush` and `hend` say what
becomes of the open files. -/
theorem step_same (hI : EmitsAlike I) (hD : ∀ {d e : Diagnostic}, D d e → d.SameCause e)
    (hrefl : ∀ d, D d d) (h : Alike I D s t) (hcurrent : s.files.current = t.files.current)
    (hdepth : s.files.outer.length = t.files.outer.length)
    (hfiles : ∀ r, F (s.resume r).files (t.resume r).files)
    (hpush : ∀ r reader hs ht, F ((s.resume r).files.push reader hs)
      ((t.resume r).files.push reader ht))
    (hend : ∀ r, StepAlike I D F (endFile setting (s.resume r)) (endFile setting (t.resume r))) :
    StepAlike I D F (step setting s) (step setting t) :=
  step_same_paired hD hrefl h hcurrent hdepth
    (fun _ _ _ hinclude => execute_paired hI (h.resume rfl).twin setting hinclude) hfiles hpush hend

/-- Two passes over the same files, alike but for their images. -/
structure Abreast (I : Option Emitter → Option Emitter → Prop) (s t : State) : Prop where
  alike : Alike I Eq s t
  files : s.files = t.files

theorem Abreast.parse (h : Abreast I s t) (setting : Setting) :
    Statement.parse (s.context setting) s.reading =
      Statement.parse (t.context setting) t.reading := by
  rw [h.alike.context, State.reading, State.reading, h.files, h.alike.twin.scopes]

/-- A step of two passes over the same files, if all but inclusions do the same in both. -/
theorem step_abreast (h : Abreast I s t)
    (hpaired : ∀ statement r, Statement.parse (s.context setting) s.reading = .ok statement r →
      (∀ name, statement ≠ .includeFile name) →
      Paired I (s.resume r) (t.resume r) (execute setting statement (s.resume r))
        (execute setting statement (t.resume r))) :
    StepAlike I Eq Eq (step setting s) (step setting t) := by
  have hresume : ∀ r, (s.resume r).files = (t.resume r).files := by
    intro r
    simp only [State.resume, h.files]
  refine step_same_paired (fun hde => congrArg Diagnostic.cause hde) (fun d => rfl) h.alike
    (by rw [h.files]) (by rw [h.files]) hpaired hresume ?_ ?_
  · intro r reader hs ht
    congr 1
    exact hresume r
  · intro r
    have halike : Alike I Eq (s.resume r) (t.resume r) := h.alike.resume rfl
    unfold endFile
    rw [hresume r]
    split
    · exact .next (halike.withFiles _ _) rfl
    · refine .finished (halike.finish fun error => ?_)
      simp only [State.diagnostic, State.reading, Reading.diagnostic, Reading.location, hresume r]

end Assembly

end Assembler6502
