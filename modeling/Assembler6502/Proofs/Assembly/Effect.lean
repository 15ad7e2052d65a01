/-
What a statement does that is carried out.

`Effect` says, kind by kind, under which conditions a statement succeeds and
what the state is afterwards.  All that is proved of passes is read off from
it, so `execute` is opened here only.

* **`effect_of_execute`** — a statement that succeeds has its effect;
* **`Effect.address`**, **`Effect.path`**, **`Effect.files`** — what becomes of
  the address, the open scope and the open files.
-/
import Assembler6502.Assembly.Run
import Assembler6502.Proofs.Statement.Extent
import Assembler6502.Proofs.Statement.Inversion

namespace Assembler6502

namespace Assembly

/-- What writing makes of the image: nothing if there is none. -/
def Emits (output : EStateM FileError Emitter Unit) : Option Emitter → Option Emitter → Prop
  | none, image => image = none
  | some e, image => ∃ e', output e = .ok () e' ∧ image = some e'

/-- The state with a label at its address, which only the first pass sets. -/
def State.labelled (pass : Pass) (name : String) (s : State) : State :=
  if pass = .first then { s with scopes := s.scopes.insert name ⟨.label, some s.address⟩ } else s

/-- Carrying out a statement leads from one state to another. -/
inductive Effect (setting : Setting) : Statement → State → State → Prop where
  | instruction {i : Instruction} {s : State} {bytes : List UInt8} {image : Option Emitter}
      (code : i.encode setting.pass s.address = .ok bytes)
      (output : Emits (Emitter.instruction s.address bytes) s.image image) :
      Effect setting (.instruction i) s
        { s with image, address := s.address + Int32.ofNat bytes.length, placed := true }
  | bytes {data : List UInt8} {s : State} {image : Option Emitter}
      (output : Emits (Emitter.data s.address data) s.image image) :
      Effect setting (.bytes data) s
        { s with image, address := s.address + Int32.ofNat data.length, placed := true }
  | words {data : List UInt16} {s : State} {image : Option Emitter}
      (output : Emits (Emitter.data s.address (wordBytes data)) s.image image) :
      Effect setting (.words data) s
        { s with image, address := s.address + Int32.ofNat (wordBytes data).length, placed := true }
  | firstOrigin {origin : Int32} {s : State} (pass : setting.pass = .first)
      (high : ¬ origin < 0x100) :
      Effect setting (.origin origin) s
        { s with address := origin, start := if s.placed then s.start else origin }
  | secondOrigin {origin : Int32} {s : State} {image : Option Emitter}
      (pass : setting.pass = .second) (forward : s.placed = true → ¬ origin < s.address)
      (output : if s.placed then
          Emits (Emitter.fill (origin - s.address).toNatClampNeg) s.image image
        else image = s.image) :
      Effect setting (.origin origin) s { s with image, address := origin }
  | includeFile {name path : String} {s : State} {source : Source}
      (room : s.files.outer.length + 1 < includeLimit)
      (found : findInclude setting.disk s.files.current.source name = some path)
      (opened : openSource setting.disk path = .ok source) :
      Effect setting (.includeFile name) s
        { s with files := s.files.push (.start source) room }
  | anonymousLabel {s : State} :
      Effect setting .anonymousLabel s
        { s with anonymous :=
            if setting.pass = .first then s.anonymous.record s.scopes.depth s.address
            else s.anonymous }
  | label {name : String} {s : State}
      (free : setting.pass = .first → ∀ kind v, s.scopes.lookupLocal name ≠ some ⟨kind, some v⟩) :
      Effect setting (.label name) s (s.labelled setting.pass name)
  | assign {name : String} {value : Int32} {relocatable : Bool} {s : State} :
      Effect setting (.assign name value relocatable) s
        { s with
          scopes := s.scopes.insert name ⟨if relocatable then .label else .identifier, some value⟩
          assigned := if setting.pass = .first then s.assigned ++ [name] else s.assigned }
  | openScope {name : String} {s : State} {scopes : Scopes}
      (free : setting.pass = .first → ∀ kind v, s.scopes.lookupLocal name ≠ some ⟨kind, some v⟩)
      (entered : (s.labelled setting.pass name).scopes.enter? name = some scopes) :
      Effect setting (.openScope name) s { s.labelled setting.pass name with scopes }
  | closeScope {s : State} {scopes : Scopes} (left : s.scopes.leave? = some scopes) :
      Effect setting .closeScope s { s with scopes }

/-! ### Statements have their effect -/

variable {s t u : State}

theorem emit_eq_ok {output : EStateM FileError Emitter Unit} {x : Unit}
    (h : emit output s = .ok x t) : ∃ image, Emits output s.image image ∧ t = { s with image } := by
  unfold emit at h
  split at h
  · next hi =>
    cases h
    refine ⟨none, ?_, by rw [← hi]⟩
    rw [hi]
    exact rfl
  · next e hi =>
    rw [hi]
    split at h
    · next e' he =>
      cases h
      exact ⟨some e', ⟨e', he, rfl⟩, rfl⟩
    · cases h

theorem executeInstruction_effect {setting : Setting} {i : Instruction} {x : Unit}
    (h : executeInstruction setting.pass i s = .ok x t) : Effect setting (.instruction i) s t := by
  obtain ⟨_, _, hget, h⟩ := bind_eq_ok h
  cases hget
  cases hcode : i.encode setting.pass s.address with
  | error e =>
    rw [hcode] at h
    cases h
  | ok bytes =>
    rw [hcode] at h
    obtain ⟨_, u, hemit, h⟩ := bind_eq_ok h
    obtain ⟨image, hout, rfl⟩ := emit_eq_ok hemit
    cases h
    exact .instruction hcode hout

theorem executeData_ok {data : List UInt8} {x : Unit} (h : executeData data s = .ok x t) :
    ∃ image, Emits (Emitter.data s.address data) s.image image ∧
      t = { s with image, address := s.address + Int32.ofNat data.length, placed := true } := by
  obtain ⟨_, _, hget, h⟩ := bind_eq_ok h
  cases hget
  obtain ⟨_, u, hemit, h⟩ := bind_eq_ok h
  obtain ⟨image, hout, rfl⟩ := emit_eq_ok hemit
  cases h
  exact ⟨image, hout, rfl⟩

theorem executeOrigin_effect {setting : Setting} {origin : Int32} {x : Unit}
    (h : executeOrigin setting.pass origin s = .ok x t) : Effect setting (.origin origin) s t := by
  obtain ⟨_, _, hget, h⟩ := bind_eq_ok h
  cases hget
  cases hpass : setting.pass with
  | first =>
    rw [hpass] at h
    dsimp only at h
    split at h
    · cases h
    · next hhigh =>
      cases h
      exact .firstOrigin hpass hhigh
  | second =>
    rw [hpass] at h
    dsimp only at h
    split at h
    · cases h
    · next hforward =>
      cases hplaced : s.placed with
      | false =>
        rw [if_neg (by rw [hplaced]; exact nofun)] at h
        cases h
        exact .secondOrigin hpass (by rw [hplaced]; exact nofun) (by rw [hplaced]; exact rfl)
      | true =>
        rw [if_pos hplaced] at h
        obtain ⟨_, u, hemit, h⟩ := bind_eq_ok h
        obtain ⟨image, hout, rfl⟩ := emit_eq_ok hemit
        cases h
        refine .secondOrigin hpass (fun _ hlt => hforward ?_) (by rw [if_pos hplaced]; exact hout)
        rw [hplaced, Bool.true_and]
        exact decide_eq_true hlt

theorem executeInclude_effect {setting : Setting} {name : String} {x : Unit}
    (h : executeInclude setting.disk name s = .ok x t) :
    Effect setting (.includeFile name) s t := by
  obtain ⟨_, _, hget, h⟩ := bind_eq_ok h
  cases hget
  by_cases hroom : s.files.outer.length + 1 < includeLimit
  · rw [dif_pos hroom] at h
    cases hfound : findInclude setting.disk s.files.current.source name with
    | none =>
      rw [hfound] at h
      cases h
    | some path =>
      rw [hfound] at h
      dsimp only at h
      cases hopened : openSource setting.disk path with
      | error e =>
        rw [hopened] at h
        cases h
      | ok source =>
        rw [hopened] at h
        cases h
        exact .includeFile hroom hfound hopened
  · rw [dif_neg hroom] at h
    cases h

/-- A label is set only where the scope has no value for its name. -/
theorem executeLabel_ok {pass : Pass} {name : String} {x : Unit}
    (h : executeLabel pass name s = .ok x t) :
    (pass = .first → ∀ kind v, s.scopes.lookupLocal name ≠ some ⟨kind, some v⟩) ∧
      t = s.labelled pass name := by
  unfold executeLabel at h
  unfold State.labelled
  by_cases hpass : pass = .first
  · rw [if_pos hpass] at h ⊢
    obtain ⟨_, _, hget, h⟩ := bind_eq_ok h
    cases hget
    cases hlocal : s.scopes.lookupLocal name with
    | none =>
      rw [hlocal] at h
      cases h
      exact ⟨fun _ _ _ => nofun, rfl⟩
    | some symbol =>
      obtain ⟨kind, value⟩ := symbol
      cases value with
      | some v =>
        rw [hlocal] at h
        cases kind <;> cases h
      | none =>
        rw [hlocal] at h
        cases kind <;> cases h <;> exact ⟨fun _ _ _ => nofun, rfl⟩
  · rw [if_neg hpass] at h ⊢
    cases h
    exact ⟨fun h => absurd h hpass, rfl⟩

theorem executeAssign_effect {setting : Setting} {name : String} {value : Int32}
    {relocatable : Bool} {x : Unit}
    (h : executeAssign setting.pass name value relocatable s = .ok x t) :
    Effect setting (.assign name value relocatable) s t := by
  obtain ⟨_, u, hbind, h⟩ := bind_eq_ok h
  cases hbind
  have heffect : Effect setting (.assign name value relocatable) s _ := .assign
  by_cases hpass : setting.pass = .first
  · rw [if_pos hpass] at h heffect
    cases h
    exact heffect
  · rw [if_neg hpass] at h heffect
    cases h
    exact heffect

theorem executeOpenScope_effect {setting : Setting} {name : String} {x : Unit}
    (h : executeOpenScope setting.pass name s = .ok x t) :
    Effect setting (.openScope name) s t := by
  obtain ⟨_, u, hlabel, h⟩ := bind_eq_ok h
  obtain ⟨hfree, rfl⟩ := executeLabel_ok hlabel
  obtain ⟨_, _, hget, h⟩ := bind_eq_ok h
  cases hget
  cases hentered : (s.labelled setting.pass name).scopes.enter? name with
  | none =>
    rw [hentered] at h
    cases h
  | some scopes =>
    rw [hentered] at h
    cases h
    exact .openScope hfree hentered

theorem executeCloseScope_effect {setting : Setting} {x : Unit}
    (h : executeCloseScope s = .ok x t) : Effect setting .closeScope s t := by
  obtain ⟨_, _, hget, h⟩ := bind_eq_ok h
  cases hget
  cases hleft : s.scopes.leave? with
  | none =>
    rw [hleft] at h
    cases h
  | some scopes =>
    rw [hleft] at h
    cases h
    exact .closeScope hleft

theorem executeAnonymousLabel_effect {setting : Setting} {x : Unit}
    (h : executeAnonymousLabel setting.pass s = .ok x t) : Effect setting .anonymousLabel s t := by
  have heffect : Effect setting .anonymousLabel s _ := .anonymousLabel
  unfold executeAnonymousLabel at h
  by_cases hpass : setting.pass = .first
  · rw [if_pos hpass] at h heffect
    cases h
    exact heffect
  · rw [if_neg hpass] at h heffect
    cases h
    exact heffect

/-- A statement that succeeds has its effect. -/
theorem effect_of_execute {setting : Setting} {statement : Statement} {x : Unit}
    (hend : statement ≠ .endOfInput) (h : execute setting statement s = .ok x t) :
    Effect setting statement s t := by
  cases statement with
  | instruction i => exact executeInstruction_effect h
  | origin address => exact executeOrigin_effect h
  | includeFile name => exact executeInclude_effect h
  | anonymousLabel => exact executeAnonymousLabel_effect h
  | bytes data =>
    obtain ⟨image, hout, rfl⟩ := executeData_ok h
    exact .bytes hout
  | words data =>
    obtain ⟨image, hout, rfl⟩ := executeData_ok h
    exact .words hout
  | label name =>
    obtain ⟨hfree, rfl⟩ := executeLabel_ok h
    exact .label hfree
  | assign name value relocatable => exact executeAssign_effect h
  | openScope name => exact executeOpenScope_effect h
  | closeScope => exact executeCloseScope_effect h
  | undefined => cases h
  | endOfInput => exact absurd rfl hend

/-! ### The parts of the state -/

/-- A label changes the scopes only. -/
theorem State.labelled_eq (pass : Pass) (name : String) (s : State) :
    s.labelled pass name = { s with scopes := (s.labelled pass name).scopes } := by
  unfold State.labelled
  split <;> rfl

theorem State.path_labelled (pass : Pass) (name : String) (s : State) :
    (s.labelled pass name).scopes.path = s.scopes.path := by
  unfold State.labelled
  split <;> rfl

variable {setting : Setting} {statement : Statement}

/-- The effect of a statement notes no error. -/
theorem Effect.errors (h : Effect setting statement s t) : t.errors = s.errors := by
  cases h with
  | label => rw [State.labelled_eq]
  | openScope => rw [State.labelled_eq]
  | _ => rfl

theorem Effect.address (h : Effect setting statement s t) :
    t.address = statement.behind s.address := by
  have hstay : s.address = s.address + Int32.ofNat 0 := (Int32.add_zero s.address).symm
  cases h with
  | instruction code => rw [Instruction.length_encode code]; rfl
  | bytes => rfl
  | words => rw [length_wordBytes]; rfl
  | firstOrigin => rfl
  | secondOrigin => rfl
  | label => rw [State.labelled_eq]; exact hstay
  | openScope => rw [State.labelled_eq]; exact hstay
  | _ => exact hstay

theorem Effect.path (h : Effect setting statement s t) :
    t.scopes.path = statement.pathBehind s.scopes.path := by
  cases h with
  | label => exact State.path_labelled _ _ _
  | openScope _ entered =>
    unfold Scopes.enter? at entered
    split at entered
    · cases entered
      exact congrArg (List.cons _) (State.path_labelled _ _ _)
    · cases entered
  | closeScope left =>
    unfold Scopes.leave? at left
    split at left
    · cases left
    · next hpath =>
      cases left
      exact (congrArg List.tail hpath).symm
  | _ => rfl

/-- Only an inclusion touches the open files. -/
theorem Effect.files (h : Effect setting statement s t) :
    (∃ name path source room, statement = .includeFile name ∧
      findInclude setting.disk s.files.current.source name = some path ∧
      openSource setting.disk path = .ok source ∧ t.files = s.files.push (.start source) room) ∨
    (∀ name, statement ≠ .includeFile name) ∧ t.files = s.files := by
  cases h with
  | includeFile room found opened => exact .inl ⟨_, _, _, room, rfl, found, opened, rfl⟩
  | label => exact .inr ⟨nofun, by rw [State.labelled_eq]⟩
  | openScope => exact .inr ⟨nofun, by rw [State.labelled_eq]⟩
  | _ => exact .inr ⟨nofun, rfl⟩

end Assembly

end Assembler6502
