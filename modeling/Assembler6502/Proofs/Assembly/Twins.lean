/-
Two passes side by side.

Statements look at the names, the address and what was placed, but neither at
the files that are open, nor at the errors so far, nor at what the image holds.
So two states that agree in what statements look at agree behind every statement
too, and if it fails in one of them, it fails with the same error in the other.

* **`Twin`** — two states that statements cannot tell apart;
* **`Paired`** — the outcomes of an action in twin states;
* **`execute_paired`** — a statement that includes nothing, in twin states.

Design notes.  What the images of twin states have in common is left open.
`EmitsAlike` says what is asked of it: writing the same piece to both keeps it, or
fails in both.
-/
import Assembler6502.Assembly.Run

namespace Assembler6502

namespace Assembly

variable {I : Option Emitter → Option Emitter → Prop} {α β : Type} {s t u v : State}

/-- Two states that statements cannot tell apart; `I` relates the images. -/
structure Twin (I : Option Emitter → Option Emitter → Prop) (s t : State) : Prop where
  scopes : s.scopes = t.scopes
  anonymous : s.anonymous = t.anonymous
  address : s.address = t.address
  start : s.start = t.start
  placed : s.placed = t.placed
  assigned : s.assigned = t.assigned
  image : I s.image t.image

/-- The open files and the errors are the same. -/
structure Keeps (s u : State) : Prop where
  files : u.files = s.files
  errors : u.errors = s.errors

theorem Keeps.refl (s : State) : Keeps s s :=
  ⟨rfl, rfl⟩

theorem Keeps.trans {w : State} (h : Keeps s u) (h' : Keeps u w) : Keeps s w :=
  ⟨h'.files.trans h.files, h'.errors.trans h.errors⟩

theorem Keeps.diagnostic (h : Keeps s u) (error : StatementError) :
    u.diagnostic error = s.diagnostic error := by
  simp only [State.diagnostic, State.reading, Reading.diagnostic, Reading.location, h.files]

/-- What an action gives in two states: results in twin states, or the same failure. -/
inductive Paired (I : Option Emitter → Option Emitter → Prop) (s t : State) :
    EStateM.Result Fault State α → EStateM.Result Fault State α → Prop where
  | ok {x : α} {u v : State} (twin : Twin I u v) (left : Keeps s u) (right : Keeps t v) :
      Paired I s t (.ok x u) (.ok x v)
  | failed {error : StatementError} {u v : State} (twin : Twin I u v) (left : Keeps s u)
      (right : Keeps t v) :
      Paired I s t (.error (.diagnostic (s.diagnostic error)) u)
        (.error (.diagnostic (t.diagnostic error)) v)
  | full {error : FileError} {u v : State} (twin : Twin I u v) (left : Keeps s u)
      (right : Keeps t v) :
      Paired I s t (.error (.file error) u) (.error (.file error) v)

/-- Writing the same piece to related images leaves related images, or fails for both. -/
def EmitsAlike (I : Option Emitter → Option Emitter → Prop) : Prop :=
  ∀ {s t : State}, Twin I s t → ∀ (output : Format → List UInt8) (count : Nat),
    Paired I s t (emit (do Emitter.put (output (← get).format) count) s)
      (emit (do Emitter.put (output (← get).format) count) t)

namespace Paired

theorem pure (h : Twin I s t) (x : α) :
    Paired I s t ((Pure.pure x : Action α) s) ((Pure.pure x : Action α) t) :=
  .ok h (.refl s) (.refl t)

theorem fail (h : Twin I s t) (error : StatementError) :
    Paired I s t (Assembly.fail error s) (Assembly.fail error t) :=
  .failed h (.refl s) (.refl t)

theorem modify {f g : State → State} (h : Twin I (f s) (g t)) (left : Keeps s (f s))
    (right : Keeps t (g t)) :
    Paired I s t ((modify f : Action Unit) s) ((modify g : Action Unit) t) :=
  .ok h left right

theorem get {f g : State → Action α} (h : Paired I s t (f s s) (g t t)) :
    Paired I s t ((get >>= f : Action α) s) ((get >>= g : Action α) t) :=
  h

theorem bind {a b : Action α} {f g : α → Action β} (h : Paired I s t (a s) (b t))
    (hrest : ∀ x u v, Twin I u v → Paired I u v (f x u) (g x v)) :
    Paired I s t ((a >>= f) s) ((b >>= g) t) := by
  show Paired I s t (EStateM.bind a f s) (EStateM.bind b g t)
  unfold EStateM.bind
  generalize a s = x at h ⊢
  generalize b t = y at h ⊢
  cases h with
  | @ok x u v twin left right =>
    have hnext := hrest x u v twin
    dsimp only
    generalize f x u = x' at hnext ⊢
    generalize g x v = y' at hnext ⊢
    cases hnext with
    | ok twin' left' right' => exact .ok twin' (left.trans left') (right.trans right')
    | failed twin' left' right' =>
      rw [left.diagnostic, right.diagnostic]
      exact .failed twin' (left.trans left') (right.trans right')
    | full twin' left' right' => exact .full twin' (left.trans left') (right.trans right')
  | failed twin left right => exact .failed twin left right
  | full twin left right => exact .full twin left right

theorem advance (h : Twin I s t) (count : Nat) :
    Paired I s t (advance count s) (advance count t) :=
  modify ⟨h.scopes, h.anonymous, congrArg (· + Int32.ofNat count) h.address, h.start, rfl,
    h.assigned, h.image⟩ ⟨rfl, rfl⟩ ⟨rfl, rfl⟩

end Paired

/-! ### Statements -/

section

variable (hI : EmitsAlike I) (h : Twin I s t)

include hI h in
theorem executeInstruction_paired (pass : Pass) (i : Instruction) :
    Paired I s t (executeInstruction pass i s) (executeInstruction pass i t) := by
  refine .get ?_
  rw [← h.address]
  cases i.encode pass s.address with
  | error error => exact .fail h error
  | ok bytes =>
    exact .bind (hI h (fun f => f.instruction s.address bytes) bytes.length) fun _ u v huv =>
      .advance huv bytes.length

include hI h in
theorem executeData_paired (bytes : List UInt8) :
    Paired I s t (executeData bytes s) (executeData bytes t) := by
  refine .get ?_
  rw [← h.address]
  exact .bind (hI h (fun f => f.data s.address bytes) bytes.length) fun _ u v huv =>
    .advance huv bytes.length

include h in
theorem moveTo_paired (origin : Int32) :
    Paired I s t ((modify fun s => { s with address := origin } : Action Unit) s)
      ((modify fun s => { s with address := origin } : Action Unit) t) :=
  .modify ⟨h.scopes, h.anonymous, rfl, h.start, h.placed, h.assigned, h.image⟩ ⟨rfl, rfl⟩ ⟨rfl, rfl⟩

include h in
theorem executeOrigin_first_paired (origin : Int32) :
    Paired I s t (executeOrigin .first origin s) (executeOrigin .first origin t) := by
  refine .get ?_
  dsimp only
  split
  · exact .fail h _
  · refine .modify ⟨h.scopes, h.anonymous, rfl, ?_, h.placed, h.assigned, h.image⟩ ⟨rfl, rfl⟩
      ⟨rfl, rfl⟩
    rw [h.placed, h.start]

include hI h in
theorem executeOrigin_paired (pass : Pass) (origin : Int32) :
    Paired I s t (executeOrigin pass origin s) (executeOrigin pass origin t) := by
  cases pass with
  | first => exact executeOrigin_first_paired h origin
  | second =>
    refine .get ?_
    dsimp only
    rw [← h.address, ← h.placed]
    split
    · exact .fail h _
    · split
      · refine .bind (hI h (fun f => f.fill (origin - s.address).toNatClampNeg) _) ?_
        exact fun _ u v huv => moveTo_paired huv origin
      · exact moveTo_paired h origin

include h in
theorem executeLabel_paired (pass : Pass) (name : String) :
    Paired I s t (executeLabel pass name s) (executeLabel pass name t) := by
  unfold executeLabel
  split
  · refine .get ?_
    rw [← h.scopes, ← h.address]
    have hbind : Paired I s t (bind name ⟨.label, some s.address⟩ s)
        (bind name ⟨.label, some s.address⟩ t) := by
      refine .modify ⟨?_, h.anonymous, h.address, h.start, h.placed, h.assigned, h.image⟩ ⟨rfl, rfl⟩
        ⟨rfl, rfl⟩
      rw [h.scopes]
    cases s.scopes.lookupLocal name with
    | none => exact hbind
    | some symbol =>
      obtain ⟨kind, value⟩ := symbol
      cases value with
      | none => cases kind <;> exact hbind
      | some v => cases kind <;> exact .fail h _
  · exact .pure h ()

include h in
theorem executeAssign_paired (pass : Pass) (name : String) (value : Int32) (relocatable : Bool) :
    Paired I s t (executeAssign pass name value relocatable s)
      (executeAssign pass name value relocatable t) := by
  refine .bind (.modify ⟨?_, h.anonymous, h.address, h.start, h.placed, h.assigned, h.image⟩
    ⟨rfl, rfl⟩ ⟨rfl, rfl⟩) fun _ u v huv => ?_
  · rw [h.scopes]
  · split
    · refine .modify ⟨huv.scopes, huv.anonymous, huv.address, huv.start, huv.placed, ?_, huv.image⟩
        ⟨rfl, rfl⟩ ⟨rfl, rfl⟩
      rw [huv.assigned]
    · exact .pure huv ()

include h in
theorem executeOpenScope_paired (pass : Pass) (name : String) :
    Paired I s t (executeOpenScope pass name s) (executeOpenScope pass name t) := by
  refine .bind (executeLabel_paired h pass name) fun _ u v huv => .get ?_
  rw [← huv.scopes]
  cases u.scopes.enter? name with
  | none => exact .fail huv _
  | some scopes =>
    exact .modify ⟨rfl, huv.anonymous, huv.address, huv.start, huv.placed, huv.assigned, huv.image⟩
      ⟨rfl, rfl⟩ ⟨rfl, rfl⟩

include h in
theorem executeCloseScope_paired : Paired I s t (executeCloseScope s) (executeCloseScope t) := by
  refine .get ?_
  rw [← h.scopes]
  cases s.scopes.leave? with
  | none => exact .fail h _
  | some scopes =>
    exact .modify ⟨rfl, h.anonymous, h.address, h.start, h.placed, h.assigned, h.image⟩
      ⟨rfl, rfl⟩ ⟨rfl, rfl⟩

include h in
theorem executeAnonymousLabel_paired (pass : Pass) :
    Paired I s t (executeAnonymousLabel pass s) (executeAnonymousLabel pass t) := by
  unfold executeAnonymousLabel
  split
  · refine .modify ⟨h.scopes, ?_, h.address, h.start, h.placed, h.assigned, h.image⟩ ⟨rfl, rfl⟩
      ⟨rfl, rfl⟩
    rw [h.anonymous, h.scopes, h.address]
  · exact .pure h ()

include hI h in
/-- All statements but inclusions. -/
theorem execute_paired (setting : Setting) {statement : Statement}
    (hinclude : ∀ name, statement ≠ .includeFile name) :
    Paired I s t (execute setting statement s) (execute setting statement t) := by
  cases statement with
  | includeFile name => exact absurd rfl (hinclude name)
  | instruction i => exact executeInstruction_paired hI h setting.pass i
  | origin address => exact executeOrigin_paired hI h setting.pass address
  | anonymousLabel => exact executeAnonymousLabel_paired h setting.pass
  | bytes data => exact executeData_paired hI h data
  | words data => exact executeData_paired hI h (wordBytes data)
  | label name => exact executeLabel_paired h setting.pass name
  | assign name value relocatable =>
    exact executeAssign_paired h setting.pass name value relocatable
  | openScope name => exact executeOpenScope_paired h setting.pass name
  | closeScope => exact executeCloseScope_paired h
  | undefined => exact .fail h _
  | endOfInput => exact .pure h ()

end

/-! ### The same image -/

theorem Twin.refl (s : State) : Twin Eq s s :=
  ⟨rfl, rfl, rfl, rfl, rfl, rfl, rfl⟩

theorem emitsAlike_eq : EmitsAlike Eq := by
  intro s t h output count
  have himage := h.image
  have hkeep : ∀ image, Twin Eq { s with image } { t with image } :=
    fun _ => ⟨h.scopes, h.anonymous, h.address, h.start, h.placed, h.assigned, rfl⟩
  unfold emit
  rw [← himage]
  cases hs : s.image with
  | none => exact .ok h (.refl s) (.refl t)
  | some emitter =>
    dsimp only
    split
    · exact .ok (hkeep _) ⟨rfl, rfl⟩ ⟨rfl, rfl⟩
    · exact .full (hkeep _) ⟨rfl, rfl⟩ ⟨rfl, rfl⟩

end Assembly

end Assembler6502
