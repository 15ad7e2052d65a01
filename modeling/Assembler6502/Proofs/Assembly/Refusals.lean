/-
Statements that fail.

`Refusal` says, kind by kind, when a statement is not carried out, with which
error, and in which state this leaves the pass.  It is the counterpart of
`Effect`.

* **`refusal_of_execute`** — a statement that fails is refused;
* **`step_cases`** — what a step of a pass does, with errors or without;
* **`Refusal.second`** — the second pass refuses a statement without a trace;
* **`execute_refused`** — so does the first pass, but for one statement: a scope
  that would be nested too deeply leaves its label behind;
* **`execute_refused_too_deep`** — such a label.

Design notes.  All kinds of statements look first and change the state then.
Only a scope does two things, and the second of them can fail: its label is
placed before it is seen that there is no level left.
-/
import Assembler6502.Proofs.Assembly.Definitions
import Assembler6502.Session

namespace Assembler6502

/-- A scope is not entered on the last level only. -/
theorem Scopes.enter?_eq_none {s : Scopes} {name : String} (h : s.enter? name = none) :
    s.depth + 1 = levelLimit := by
  have hbounded := s.bounded
  unfold enter? at h
  split at h
  · cases h
  · next hfull =>
    unfold depth
    omega

namespace Assembly

/-- The error of a label whose name has a value already. -/
def redefinition (name : String) : SymbolKind → StatementError
  | .label => .labelRedefinition name
  | .identifier => .symbolRedefinition name

/-- A statement fails in a state with an error and leaves another state. -/
inductive Refusal (setting : Setting) (s : State) : Statement → StatementError → State → Prop where
  | instruction {i : Instruction} {error : StatementError}
      (code : i.encode setting.pass s.address = .error error) :
      Refusal setting s (.instruction i) error s
  | zeroPage {origin : Int32} (pass : setting.pass = .first) (low : origin < 0x100) :
      Refusal setting s (.origin origin) .zeroPageOrigin s
  | backward {origin : Int32} (pass : setting.pass = .second) (placed : s.placed = true)
      (behind : origin < s.address) : Refusal setting s (.origin origin) .backwardOrigin s
  | tooDeep {name : String} (full : ¬ s.files.outer.length + 1 < includeLimit) :
      Refusal setting s (.includeFile name) (.includeTooDeep includeLimit) s
  | notFound {name : String} (room : s.files.outer.length + 1 < includeLimit)
      (missing : ∀ path source,
        findInclude setting.disk s.files.current.source name = some path →
          openSource setting.disk path ≠ .ok source) :
      Refusal setting s (.includeFile name) (.cannotOpen name) s
  | taken {statement : Statement} {name : String} {kind : SymbolKind} {v : Int32}
      (label : statement.label? = some name) (pass : setting.pass = .first)
      (bound : s.scopes.lookupLocal name = some ⟨kind, some v⟩) :
      Refusal setting s statement (redefinition name kind) s
  | nesting {name : String}
      (free : setting.pass = .first → ∀ kind v, s.scopes.lookupLocal name ≠ some ⟨kind, some v⟩)
      (full : s.scopes.depth + 1 = levelLimit) :
      Refusal setting s (.openScope name) (.nestingLimit levelLimit) (s.labelled setting.pass name)
  | closeScope (outermost : s.scopes.leave? = none) :
      Refusal setting s .closeScope .unmatchedScopeEnd s
  | undefined : Refusal setting s .undefined .undefinedStatement s

/-! ### Statements that fail are refused -/

variable {setting : Setting} {statement : Statement} {s t : State} {d : Diagnostic}

theorem emit_ne_diagnostic {output : EStateM FileError Emitter Unit} :
    emit output s ≠ .error (.diagnostic d) t := by
  unfold emit
  split
  · exact nofun
  · split <;> exact nofun

theorem executeInstruction_refusal {i : Instruction}
    (h : executeInstruction setting.pass i s = .error (.diagnostic d) t) :
    ∃ error, Refusal setting s (.instruction i) error t ∧ d = s.diagnostic error := by
  obtain ⟨⟨⟩⟩ | ⟨_, _, ⟨⟩, h⟩ := bind_eq_error h
  cases hcode : i.encode setting.pass s.address with
  | error error =>
    rw [hcode] at h
    cases h
    exact ⟨error, .instruction hcode, rfl⟩
  | ok bytes =>
    rw [hcode] at h
    obtain hemit | ⟨_, _, _, ⟨⟩⟩ := bind_eq_error h
    exact absurd hemit emit_ne_diagnostic

/-- Data are never refused. -/
theorem executeData_ne_diagnostic {data : List UInt8} :
    executeData data s ≠ .error (.diagnostic d) t := by
  intro h
  obtain ⟨⟨⟩⟩ | ⟨_, _, ⟨⟩, h⟩ := bind_eq_error h
  obtain hemit | ⟨_, _, _, ⟨⟩⟩ := bind_eq_error h
  exact emit_ne_diagnostic hemit

theorem executeOrigin_refusal {origin : Int32}
    (h : executeOrigin setting.pass origin s = .error (.diagnostic d) t) :
    ∃ error, Refusal setting s (.origin origin) error t ∧ d = s.diagnostic error := by
  obtain ⟨⟨⟩⟩ | ⟨_, _, ⟨⟩, h⟩ := bind_eq_error h
  cases hpass : setting.pass with
  | first =>
    rw [hpass] at h
    dsimp only at h
    split at h
    · next hlow =>
      cases h
      exact ⟨_, .zeroPage hpass hlow, rfl⟩
    · cases h
  | second =>
    rw [hpass] at h
    dsimp only at h
    split at h
    · next hbehind =>
      cases h
      rw [Bool.and_eq_true, decide_eq_true_eq] at hbehind
      exact ⟨_, .backward hpass hbehind.1 hbehind.2, rfl⟩
    · split at h
      · obtain hemit | ⟨_, _, _, ⟨⟩⟩ := bind_eq_error h
        exact absurd hemit emit_ne_diagnostic
      · cases h

theorem executeInclude_refusal {name : String}
    (h : executeInclude setting.disk name s = .error (.diagnostic d) t) :
    ∃ error, Refusal setting s (.includeFile name) error t ∧ d = s.diagnostic error := by
  obtain ⟨⟨⟩⟩ | ⟨_, _, ⟨⟩, h⟩ := bind_eq_error h
  by_cases hroom : s.files.outer.length + 1 < includeLimit
  · rw [dif_pos hroom] at h
    cases hfound : findInclude setting.disk s.files.current.source name with
    | none =>
      rw [hfound] at h
      cases h
      refine ⟨_, .notFound hroom fun path source hpath => ?_, rfl⟩
      rw [hfound] at hpath
      cases hpath
    | some path =>
      rw [hfound] at h
      dsimp only at h
      cases hopened : openSource setting.disk path with
      | error e =>
        rw [hopened] at h
        cases h
        refine ⟨_, .notFound hroom fun path' source hpath => ?_, rfl⟩
        rw [hfound] at hpath
        cases hpath
        rw [hopened]
        exact nofun
      | ok source =>
        rw [hopened] at h
        cases h
  · rw [dif_neg hroom] at h
    cases h
    exact ⟨_, .tooDeep hroom, rfl⟩

/-- A label is refused where its name has a value. -/
theorem executeLabel_error {pass : Pass} {name : String} {fault : Fault}
    (h : executeLabel pass name s = .error fault t) :
    pass = .first ∧ t = s ∧ ∃ kind v, s.scopes.lookupLocal name = some ⟨kind, some v⟩ ∧
      fault = .diagnostic (s.diagnostic (redefinition name kind)) := by
  unfold executeLabel at h
  by_cases hpass : pass = .first
  · rw [if_pos hpass] at h
    obtain ⟨⟨⟩⟩ | ⟨_, _, ⟨⟩, h⟩ := bind_eq_error h
    cases hlocal : s.scopes.lookupLocal name with
    | none =>
      rw [hlocal] at h
      cases h
    | some symbol =>
      obtain ⟨kind, value⟩ := symbol
      rw [hlocal] at h
      cases value with
      | none => cases kind <;> cases h
      | some v => cases kind <;> cases h <;> exact ⟨hpass, rfl, _, v, rfl, rfl⟩
  · rw [if_neg hpass] at h
    cases h

theorem executeOpenScope_refusal {name : String}
    (h : executeOpenScope setting.pass name s = .error (.diagnostic d) t) :
    ∃ error, Refusal setting s (.openScope name) error t ∧ d = s.diagnostic error := by
  obtain hlabel | ⟨_, u, hlabel, h⟩ := bind_eq_error h
  · obtain ⟨hpass, rfl, kind, v, hlocal, heq⟩ := executeLabel_error hlabel
    cases heq
    exact ⟨_, .taken rfl hpass hlocal, rfl⟩
  · obtain ⟨hfree, rfl⟩ := executeLabel_ok hlabel
    obtain ⟨⟨⟩⟩ | ⟨_, _, ⟨⟩, h⟩ := bind_eq_error h
    cases hentered : (s.labelled setting.pass name).scopes.enter? name with
    | none =>
      rw [hentered] at h
      cases h
      have hfull := Scopes.enter?_eq_none hentered
      rw [Scopes.depth, State.path_labelled] at hfull
      refine ⟨_, .nesting hfree hfull, ?_⟩
      rw [State.labelled_eq]
      rfl
    | some scopes =>
      rw [hentered] at h
      cases h

theorem executeCloseScope_refusal (h : executeCloseScope s = .error (.diagnostic d) t) :
    ∃ error, Refusal setting s .closeScope error t ∧ d = s.diagnostic error := by
  obtain ⟨⟨⟩⟩ | ⟨_, _, ⟨⟩, h⟩ := bind_eq_error h
  cases hleft : s.scopes.leave? with
  | none =>
    rw [hleft] at h
    cases h
    exact ⟨_, .closeScope hleft, rfl⟩
  | some scopes =>
    rw [hleft] at h
    cases h

/-- A statement that fails is refused, with an error at its place. -/
theorem refusal_of_execute (h : execute setting statement s = .error (.diagnostic d) t) :
    ∃ error, Refusal setting s statement error t ∧ d = s.diagnostic error := by
  cases statement with
  | instruction i => exact executeInstruction_refusal h
  | origin address => exact executeOrigin_refusal h
  | includeFile name => exact executeInclude_refusal h
  | anonymousLabel =>
    unfold execute executeAnonymousLabel at h
    by_cases hpass : setting.pass = .first
    · rw [if_pos hpass] at h
      cases h
    · rw [if_neg hpass] at h
      cases h
  | bytes data => exact absurd h executeData_ne_diagnostic
  | words data => exact absurd h executeData_ne_diagnostic
  | label name =>
    obtain ⟨hpass, rfl, kind, v, hlocal, heq⟩ := executeLabel_error h
    cases heq
    exact ⟨_, .taken rfl hpass hlocal, rfl⟩
  | assign name value relocatable =>
    obtain ⟨⟨⟩⟩ | ⟨_, _, ⟨⟩, h⟩ := bind_eq_error h
    by_cases hpass : setting.pass = .first
    · rw [if_pos hpass] at h
      cases h
    · rw [if_neg hpass] at h
      cases h
  | openScope name => exact executeOpenScope_refusal h
  | closeScope => exact executeCloseScope_refusal h
  | undefined =>
    cases h
    exact ⟨_, .undefined, rfl⟩
  | endOfInput => cases h

/-- Carrying out a statement has its effect, or an error is noted of a statement that is refused. -/
theorem carryOut_cases (hend : statement ≠ .endOfInput)
    (h : carryOut setting statement s = .next t) :
    Effect setting statement s t ∨
      ∃ error u, Refusal setting s statement error u ∧ t = u.note (s.diagnostic error) := by
  unfold carryOut at h
  split at h
  · next u hok =>
    cases h
    exact .inl (effect_of_execute hend hok)
  · next d u herror =>
    split at h
    · cases h
    · cases h
      obtain ⟨error, hrefusal, rfl⟩ := refusal_of_execute herror
      exact .inr ⟨error, u, hrefusal, rfl⟩
  · cases h

/-- A step finds no statement and keeps all values, or it finds one, which has its effect or is
refused. -/
theorem step_cases (h : step setting s = .next t) :
    (visit? setting s = none ∧ s.reading.SameValues t.reading) ∨
      ∃ statement r, visit? setting s = some ⟨s, statement⟩ ∧ s.reading.SameValues r ∧
        (Effect setting statement (s.resume r) t ∨
          ∃ error u, Refusal setting (s.resume r) statement error u ∧
            t = u.note ((s.resume r).diagnostic error)) := by
  have hsame : s.reading.SameValues ((Statement.parse (s.context setting)).after s.reading) :=
    Statement.parse_grammatical.follows Reading.kept_sameValues s.reading
  unfold step at h
  split at h
  · next r hparse =>
    obtain ⟨files, -, rfl⟩ := endFile_next h
    rw [Parser.after_of_ok hparse] at hsame
    exact .inl ⟨by rw [visit?, hparse], hsame.path, hsame.definitionAt⟩
  · next r hparse =>
    cases h
    rw [Parser.after_of_ok hparse] at hsame
    exact .inl ⟨by rw [visit?, hparse], hsame.path, hsame.definitionAt⟩
  · next statement r hend hundefined hparse =>
    rw [Parser.after_of_ok hparse] at hsame
    exact .inr ⟨statement, r, visit?_of_parse hparse hend hundefined, hsame, carryOut_cases hend h⟩
  · next d r hparse =>
    split at h
    · cases h
    · cases h
      rw [Parser.after_of_error hparse] at hsame
      exact .inl ⟨by rw [visit?, hparse], hsame.path, hsame.definitionAt⟩

/-! ### What a refusal leaves behind -/

/-- The second pass refuses a statement without a trace. -/
theorem Refusal.second {error : StatementError} (h : Refusal setting s statement error t)
    (hpass : setting.pass = .second) : t = s := by
  cases h with
  | nesting =>
    rw [State.labelled, hpass]
    exact if_neg nofun
  | _ => rfl

/-- An assignment is never refused. -/
theorem Refusal.target? {error : StatementError} (h : Refusal setting s statement error t) :
    statement.target? = none := by
  cases h with
  | taken label =>
    cases statement with
    | assign => cases label
    | _ => rfl
  | _ => rfl

/-- A scope is to be opened on the last level, under a name that has no value yet.  The first pass
places its label there. -/
structure State.LastLevel (setting : Setting) (s : State) (statement : Statement) (name : String) :
    Prop where
  pass : setting.pass = .first
  opens : statement = .openScope name
  level : s.scopes.depth + 1 = levelLimit
  free : s.scopes.definitionAt s.scopes.path name = none

/-- The state with the label of a scope that is not opened. -/
theorem execute_lastLevel {name : String} (h : s.LastLevel setting statement name) :
    execute setting statement s = .error (.diagnostic (s.diagnostic (.nestingLimit levelLimit)))
      { s with scopes := s.scopes.insert name ⟨.label, some s.address⟩ } := by
  obtain ⟨hpass, rfl, hlevel, hfree⟩ := h
  have hlabel : executeLabel setting.pass name s =
      .ok () { s with scopes := s.scopes.insert name ⟨.label, some s.address⟩ } := by
    rw [executeLabel, if_pos hpass, placeLabel]
    refine (bind_of_ok (t := s) rfl).trans ?_
    cases hlocal : s.scopes.lookupLocal name with
    | none => rfl
    | some symbol =>
      obtain ⟨kind, value⟩ := symbol
      cases value with
      | none => cases kind <;> rfl
      | some v => exact absurd hlocal (Scopes.definitionAt_path_eq_none_iff.mp hfree kind v)
  have hentered : (s.scopes.insert name ⟨.label, some s.address⟩).enter? name = none :=
    dif_neg (Nat.not_lt_of_le (Nat.le_of_eq hlevel.symm))
  rw [execute, executeOpenScope]
  refine (bind_of_ok hlabel).trans ((bind_of_ok rfl).trans ?_)
  rw [hentered]
  rfl

/-- A statement that is refused without this leaves no trace. -/
theorem Refusal.eq_or_lastLevel {error : StatementError} (h : Refusal setting s statement error t) :
    t = s ∨ ∃ name, s.LastLevel setting statement name := by
  cases h with
  | @nesting name free full =>
    by_cases hpass : setting.pass = .first
    · have hfree := Scopes.definitionAt_path_eq_none_iff.mpr (free hpass)
      exact .inr ⟨name, hpass, rfl, full, hfree⟩
    · exact .inl (if_neg hpass)
  | _ => exact .inl rfl

/-- A statement that fails leaves the state as it was, unless it opens a scope on the last level in
the first pass, under a name that is free there.  Then the label of the scope stays, and it is all
that stays. -/
theorem execute_refused {fault : Fault} (h : execute setting statement s = .error fault t)
    (hcalm : fault.isFatal = false) :
    (t = s ↔ ∀ name, ¬ s.LastLevel setting statement name) ∧
      ∀ name, s.LastLevel setting statement name →
        fault = .diagnostic (s.diagnostic (.nestingLimit levelLimit)) ∧
          t = { s with scopes := s.scopes.insert name ⟨.label, some s.address⟩ } := by
  have hlabel : ∀ name, s.LastLevel setting statement name →
      fault = .diagnostic (s.diagnostic (.nestingLimit levelLimit)) ∧
        t = { s with scopes := s.scopes.insert name ⟨.label, some s.address⟩ } := by
    intro name hlast
    rw [execute_lastLevel hlast] at h
    cases h
    exact ⟨rfl, rfl⟩
  refine ⟨⟨fun heq name hlast => ?_, fun hnot => ?_⟩, hlabel⟩
  · -- the label has a value now and had none before
    have hscopes : s.scopes = s.scopes.insert name ⟨.label, some s.address⟩ :=
      congrArg State.scopes (heq.symm.trans (hlabel name hlast).2)
    have hvalue := s.scopes.definitionAt_insert name ⟨.label, some s.address⟩ s.scopes.path name
    rw [if_pos ⟨rfl, rfl⟩, ← hscopes, hlast.free] at hvalue
    cases hvalue
  · cases fault with
    | file error => cases hcalm
    | diagnostic d =>
      obtain ⟨error, hrefusal, -⟩ := refusal_of_execute h
      rcases hrefusal.eq_or_lastLevel with rfl | ⟨name, hlast⟩
      · rfl
      · exact absurd hlast (hnot name)

/-- Fifteen scopes inside each other. -/
def nestedSource : Source :=
  ⟨"main", none, (List.replicate 15 (Byte.ofChars ".proc p\n".toList)).flatten⟩

/-- The sixteenth scope is refused where all levels are taken, but its label is there. -/
theorem execute_refused_too_deep :
    ∃ vs s t d,
      Advances ((Session.start {}).setting .first (.empty []))
        ((Session.start {}).initial nestedSource none) vs s ∧
      execute ((Session.start {}).setting .first (.empty [])) (.openScope "q") s =
        .error (.diagnostic d) t ∧
      d.cause = .statement (.nestingLimit 16) ∧ t ≠ s ∧
      s.scopes.definitionAt (List.replicate 15 "p") "q" = none ∧
      t.scopes.definitionAt (List.replicate 15 "p") "q" = some ⟨.label, 0x1000⟩ := by
  obtain ⟨⟨vs, s⟩, hsteps, hs⟩ := Option.map_eq_some_iff.mp
    (show (steps ((Session.start {}).setting .first (.empty [])) 15
      ((Session.start {}).initial nestedSource none)).map
        (fun x => (x.2.scopes.path, x.2.scopes.definitionAt x.2.scopes.path "q", x.2.address)) =
      some (List.replicate 15 "p", none, 0x1000) by decide +kernel)
  obtain ⟨hpath, hx⟩ := Prod.mk.inj hs
  obtain ⟨hfree, haddress⟩ := Prod.mk.inj hx
  have hlast : s.LastLevel ((Session.start {}).setting .first (.empty [])) (.openScope "q") "q" :=
    ⟨rfl, rfl, by rw [Scopes.depth, hpath]; rfl, hfree⟩
  have hexecute := execute_lastLevel hlast
  obtain ⟨hkept, hlabel⟩ := execute_refused hexecute rfl
  refine ⟨vs, s, _, _, advances_of_steps hsteps, hexecute, rfl, fun heq => ?_, ?_, ?_⟩
  · exact hkept.mp heq "q" hlast
  · rw [← hpath, hfree]
  · rw [(hlabel "q" hlast).2, Scopes.definitionAt_insert, if_pos ⟨hpath.symm, rfl⟩, haddress]
    rfl

end Assembly

end Assembler6502
