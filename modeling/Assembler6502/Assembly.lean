/-
Carrying out statements.

A pass keeps the address of the next statement, the scopes, the files that are
open, what went wrong so far and, in the second pass, the image.  Each
statement changes this state, or fails and leaves an error.

* **`Assembly.execute`** — carries out one statement;
* **`OpenFiles`** — the file that is being read inside the files that include
  it, at most `includeLimit` of them.

Design notes.  The first pass gives labels their addresses and records
anonymous labels; the second finds them in the scopes.  Assignments are carried
out in both passes, so that a name has the value of the last assignment before
it.  The start address is the origin in force when the first byte is placed.
-/
import Assembler6502.Disk
import Assembler6502.Image
import Assembler6502.Statement.Grammar

namespace Assembler6502

/-! ### Open files -/

/-- A source with a cursor in it. -/
structure Reader where
  source : Source
  cursor : Cursor

def Reader.start (source : Source) : Reader :=
  ⟨source, .ofBytes source.bytes⟩

/-- The number of files that can be open inside each other. -/
def includeLimit : Nat := 16

/-- The file being read, and the files around it, the innermost first. -/
structure OpenFiles where
  current : Reader
  outer : List Reader
  bounded : outer.length < includeLimit

namespace OpenFiles

def start (source : Source) : OpenFiles :=
  ⟨.start source, [], by decide⟩

/-- Opens another file inside the current one. -/
def push (files : OpenFiles) (reader : Reader) (h : files.outer.length + 1 < includeLimit) :
    OpenFiles :=
  ⟨reader, files.current :: files.outer, h⟩

/-- Closes the current file, unless it is the only one. -/
def pop? (files : OpenFiles) : Option OpenFiles :=
  match h : files.outer with
  | [] => none
  | reader :: outer =>
    some ⟨reader, outer, by
      have hb := files.bounded
      rw [h, List.length_cons] at hb
      omega⟩

end OpenFiles

namespace Assembly

/-! ### The state of a pass -/

/-- What a pass is given. -/
structure Setting where
  pass : Pass
  characters : CharacterSet
  disk : Disk

structure State where
  scopes : Scopes
  anonymous : AnonymousLabels
  files : OpenFiles
  /-- The address of the next statement. -/
  address : Int32
  /-- The address of the first byte. -/
  start : Int32
  /-- Whether a byte has been placed. -/
  placed : Bool
  errors : List Diagnostic
  /-- The names bound by assignments. -/
  assigned : List String
  /-- The image, in the second pass. -/
  image : Option Emitter

namespace State

/-- The bytes written to the image. -/
def written (s : State) : List UInt8 :=
  s.image.elim [] fun e => e.writer.written

/-- The current file with the scopes. -/
def reading (s : State) : Reading :=
  ⟨s.files.current.source, s.files.current.cursor, s.scopes⟩

/-- The state after reading from the current file. -/
def resume (s : State) (r : Reading) : State :=
  { s with
    scopes := r.scopes
    files := { s.files with current := ⟨r.source, r.cursor⟩ } }

/-- An error of the statement that was read last. -/
def diagnostic (s : State) (error : StatementError) : Diagnostic :=
  s.reading.diagnostic error

/-- Notes an error. -/
def note (s : State) (d : Diagnostic) : State :=
  { s with errors := s.errors ++ [d] }

/-- Moves on to the next line of the current file. -/
def recover (s : State) : State :=
  s.resume s.reading.recover

end State

/-- Changes of the state that may fail; the state outlives a failure. -/
abbrev Action := EStateM Fault State

/-- Fails with an error of the statement. -/
def fail (error : StatementError) : Action Unit := fun s =>
  .error (.diagnostic (s.diagnostic error)) s

/-- Writes to the image, if there is one. -/
def emit (output : EStateM FileError Emitter Unit) : Action Unit := fun s =>
  match s.image with
  | none => .ok () s
  | some emitter =>
    match output emitter with
    | .ok _ emitter => .ok () { s with image := some emitter }
    | .error error emitter => .error (.file error) { s with image := some emitter }

/-- Goes on behind `count` bytes. -/
def advance (count : Nat) : Action Unit :=
  modify fun s => { s with address := s.address + Int32.ofNat count, placed := true }

/-! ### Statements -/

def executeInstruction (pass : Pass) (i : Instruction) : Action Unit := do
  let s ← get
  match i.encode pass s.address with
  | .error error => fail error
  | .ok bytes =>
    emit (Emitter.instruction s.address bytes)
    advance bytes.length

def executeData (bytes : List UInt8) : Action Unit := do
  emit (Emitter.data (← get).address bytes)
  advance bytes.length

/-- Goes on at another address.  The first pass takes it for the start address until a byte is
placed; the second fills the gap once there is one. -/
def executeOrigin (pass : Pass) (origin : Int32) : Action Unit := do
  let s ← get
  match pass with
  | .first =>
    if origin < 0x100 then fail .zeroPageOrigin
    else modify fun s => { s with address := origin, start := if s.placed then s.start else origin }
  | .second =>
    if s.placed && origin < s.address then fail .backwardOrigin
    else
      if s.placed then emit (Emitter.fill (origin - s.address).toNatClampNeg)
      modify fun s => { s with address := origin }

/-- Where an included file is: the name as it is written, or next to the including file. -/
def findInclude (disk : Disk) (source : Source) (name : String) : Option String :=
  if disk.isFile name then some name
  else
    match source.path with
    | none => none
    | some path =>
      let beside := Path.join (Path.parent path) name
      if disk.isFile beside then some beside else none

/-- The source in a file. -/
def openSource (disk : Disk) (path : String) : Except FileError Source :=
  (disk.read path).map fun bytes => ⟨path, some path, bytes⟩

def executeInclude (disk : Disk) (name : String) : Action Unit := do
  let s ← get
  if h : s.files.outer.length + 1 < includeLimit then
    match findInclude disk s.files.current.source name with
    | none => fail (.cannotOpen name)
    | some path =>
      match openSource disk path with
      | .error _ => fail (.cannotOpen name)
      | .ok source => set { s with files := s.files.push (.start source) h }
  else fail (.includeTooDeep includeLimit)

/-- Binds a name in the open scope. -/
def bind (name : String) (symbol : Symbol) : Action Unit :=
  modify fun s => { s with scopes := s.scopes.insert name symbol }

/-- Gives a label its address, unless the scope has a value for the name. -/
def placeLabel (name : String) : Action Unit := do
  let s ← get
  match s.scopes.lookupLocal name with
  | some ⟨.label, some _⟩ => fail (.labelRedefinition name)
  | some ⟨.identifier, some _⟩ => fail (.symbolRedefinition name)
  | _ => bind name ⟨.label, some s.address⟩

def executeLabel (pass : Pass) (name : String) : Action Unit :=
  if pass = .first then placeLabel name else pure ()

def executeAssign (pass : Pass) (name : String) (value : Int32) (relocatable : Bool) :
    Action Unit := do
  bind name ⟨if relocatable then .label else .identifier, some value⟩
  if pass = .first then
    modify fun s => { s with assigned := s.assigned ++ [name] }

/-- A scope is a label too. -/
def executeOpenScope (pass : Pass) (name : String) : Action Unit := do
  executeLabel pass name
  match (← get).scopes.enter? name with
  | none => fail (.nestingLimit levelLimit)
  | some scopes => modify fun s => { s with scopes }

def executeCloseScope : Action Unit := do
  match (← get).scopes.leave? with
  | none => fail .unmatchedScopeEnd
  | some scopes => modify fun s => { s with scopes }

def executeAnonymousLabel (pass : Pass) : Action Unit :=
  if pass = .first then
    modify fun s => { s with anonymous := s.anonymous.record s.scopes.depth s.address }
  else pure ()

/-- Carries out a statement. -/
def execute (setting : Setting) : Statement → Action Unit
  | .instruction i => executeInstruction setting.pass i
  | .origin address => executeOrigin setting.pass address
  | .includeFile name => executeInclude setting.disk name
  | .anonymousLabel => executeAnonymousLabel setting.pass
  | .bytes data => executeData data
  | .words data => executeData (wordBytes data)
  | .label name => executeLabel setting.pass name
  | .assign name value relocatable => executeAssign setting.pass name value relocatable
  | .openScope name => executeOpenScope setting.pass name
  | .closeScope => executeCloseScope
  | .undefined => fail .undefinedStatement
  | .endOfInput => pure ()

end Assembly

end Assembler6502
