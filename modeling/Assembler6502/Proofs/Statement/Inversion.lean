/-
What a statement was read from.

The first token of a statement leaves one kind of statement to be read, or two
for a name, which begins a label or an assignment.

* **`Statement.Begins`** — which statements a lexeme begins;
* **`Statement.parseFrom_begins`** — what is read begins with its first token.
-/
import Assembler6502.Statement.Progress

namespace Assembler6502

/-- A computation that succeeds has succeeded in both of its parts. -/
theorem bind_eq_ok {ε σ α β : Type} {a : EStateM ε σ α} {f : α → EStateM ε σ β} {y : β} {s u : σ}
    (h : (a >>= f) s = .ok y u) : ∃ x t, a s = .ok x t ∧ f x t = .ok y u := by
  change EStateM.bind a f s = _ at h
  unfold EStateM.bind at h
  split at h
  · next x t ha => exact ⟨x, t, ha, h⟩
  · cases h

/-- A computation that fails has failed in its first part or in the rest. -/
theorem bind_eq_error {ε σ α β : Type} {a : EStateM ε σ α} {f : α → EStateM ε σ β} {e : ε} {s u : σ}
    (h : (a >>= f) s = .error e u) :
    a s = .error e u ∨ ∃ x t, a s = .ok x t ∧ f x t = .error e u := by
  change EStateM.bind a f s = _ at h
  unfold EStateM.bind at h
  split at h
  · next x t ha => exact .inr ⟨x, t, ha, h⟩
  · next e' t ha =>
    cases h
    exact .inl ha

theorem bind_of_ok {ε σ α β : Type} {a : EStateM ε σ α} {f : α → EStateM ε σ β} {x : α} {s t : σ}
    (h : a s = .ok x t) : (a >>= f) s = f x t := by
  show EStateM.bind a f s = _
  rw [EStateM.bind, h]

namespace Statement

/-- The statements that a lexeme begins. -/
inductive Begins : Lexeme Name → Statement → Prop where
  | instruction {m : Mnemonic} {mode : Mode} {v : Int32} :
      Begins (.mnemonic m) (.instruction ⟨m, mode, v⟩)
  | origin {address : Int32} : Begins (.directive .origin) (.origin address)
  | assignedOrigin {address : Int32} : Begins (.operator .star) (.origin address)
  | includeFile {name : String} : Begins (.directive .includeFile) (.includeFile name)
  | anonymousLabel : Begins .anonymous .anonymousLabel
  | bytes {data : List UInt8} : Begins (.directive .bytes) (.bytes data)
  | words {data : List UInt16} : Begins (.directive .words) (.words data)
  | label {name : Name} : Begins (.name name) (.label name.text)
  | assign {name : Name} {value : Int32} {relocatable : Bool} (kind : name.symbol.kind ≠ .label) :
      Begins (.name name) (.assign name.text value relocatable)
  | openScope {name : String} : Begins (.directive .openScope) (.openScope name)
  | closeScope : Begins (.directive .closeScope) .closeScope
  | undefined {lexeme : Lexeme Name} : Begins lexeme .undefined
  | endOfInput : Begins .endOfInput .endOfInput

variable {c : Context} {r r' : Reading} {statement : Statement}

theorem parseOrigin_eq_ok (h : parseOrigin c r = .ok statement r') :
    ∃ address, statement = .origin address := by
  obtain ⟨value, _, -, h⟩ := bind_eq_ok h
  obtain ⟨_, _, -, h⟩ := bind_eq_ok h
  obtain ⟨_, _, -, h⟩ := bind_eq_ok h
  cases h
  exact ⟨value.number, rfl⟩

theorem parseNamed_begins {name : Name} {column : Nat}
    (h : parseNamed c name column r = .ok statement r') : Begins (.name name) statement := by
  obtain ⟨token, _, -, h⟩ := bind_eq_ok h
  split at h
  · split at h
    · cases h
    · next hkind =>
      obtain ⟨_, _, -, h⟩ := bind_eq_ok h
      obtain ⟨value, _, -, h⟩ := bind_eq_ok h
      obtain ⟨_, _, -, h⟩ := bind_eq_ok h
      obtain ⟨_, _, -, h⟩ := bind_eq_ok h
      cases h
      exact .assign hkind
  · split at h
    · cases h
    · obtain ⟨_, _, -, h⟩ := bind_eq_ok h
      cases h
      exact .label

/-- What is read begins with its first token. -/
theorem parseFrom_begins {token : Token Name} (h : parseFrom c token r = .ok statement r') :
    Begins token.lexeme statement := by
  obtain ⟨lexeme, position⟩ := token
  cases lexeme with
  | name name => exact parseNamed_begins h
  | mnemonic m =>
    obtain ⟨operand, _, -, h⟩ := bind_eq_ok h
    cases h
    exact .instruction
  | anonymous =>
    obtain ⟨_, _, -, h⟩ := bind_eq_ok h
    cases h
    exact .anonymousLabel
  | endOfInput =>
    cases h
    exact .endOfInput
  | operator op =>
    cases op with
    | star =>
      obtain ⟨_, _, -, h⟩ := bind_eq_ok h
      obtain ⟨address, rfl⟩ := parseOrigin_eq_ok h
      exact .assignedOrigin
    | _ =>
      cases h
      exact .undefined
  | directive directive =>
    cases directive with
    | origin =>
      obtain ⟨address, rfl⟩ := parseOrigin_eq_ok h
      exact .origin
    | bytes =>
      obtain ⟨data, _, -, h⟩ := bind_eq_ok h
      cases h
      exact .bytes
    | words =>
      obtain ⟨data, _, -, h⟩ := bind_eq_ok h
      cases h
      exact .words
    | includeFile =>
      obtain ⟨⟨lexeme, _⟩, _, -, h⟩ := bind_eq_ok h
      cases lexeme with
      | quoted =>
        obtain ⟨_, _, -, h⟩ := bind_eq_ok h
        cases h
        exact .includeFile
      | _ => cases h
    | openScope =>
      obtain ⟨⟨lexeme, _⟩, _, -, h⟩ := bind_eq_ok h
      cases lexeme with
      | name =>
        obtain ⟨_, _, -, h⟩ := bind_eq_ok h
        cases h
        exact .openScope
      | _ => cases h
    | closeScope =>
      obtain ⟨_, _, -, h⟩ := bind_eq_ok h
      cases h
      exact .closeScope
  | _ =>
    cases h
    exact .undefined

end Statement

end Assembler6502
