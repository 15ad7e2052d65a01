/-
Assembling a listing.

A listing is printed from statements that are known, each canonical at the
address that it comes to lie at.  Assembling it gives the bytes of these
statements and nothing else, and the bytes of instructions can be taken apart
into the instructions again.

* **`CanonicalFrom`** — each statement of a list is canonical at its address;
* **`codeFrom`** — the bytes of the statements, one behind the other;
* **`step_canonical`** — a step in front of a line carries out its statement;
* **`run_canonical`** — a pass over a listing succeeds and adds its bytes to the
  image;
* **`decodeAll_codeFrom`** — bytes of instructions are decoded to them;
* **`assembleBytes_listing`** — so assembling inverts printing, and decoding
  inverts assembling.

Design notes.  Both passes are covered by one run lemma.  The first one has no
image, and what is added to an image is then added to none.
-/
import Assembler6502.Proofs.Session.ImageLayout
import Assembler6502.Proofs.Statement.Listing

namespace Assembler6502

/-! ### Listings -/

namespace Statement

/-- The text of a listing. -/
def listingText (statements : List Statement) : List Char :=
  statements.flatMap text

/-- Each statement is canonical at its address, counted from the first one. -/
def CanonicalFrom (address : Nat) : List Statement → Prop
  | [] => True
  | statement :: rest =>
    statement.Canonical address ∧ CanonicalFrom (address + statement.size) rest

instance decidableCanonicalFrom :
    (address : Nat) → (statements : List Statement) → Decidable (CanonicalFrom address statements)
  | _, [] => .isTrue trivial
  | address, statement :: rest =>
    have := decidableCanonicalFrom (address + statement.size) rest
    inferInstanceAs (Decidable (_ ∧ _))

/-- The bytes of a statement that has some. -/
def code? (pass : Pass) (address : Nat) : Statement → Option (List UInt8)
  | .instruction i => (i.encode pass (Int32.ofNat address)).toOption
  | .bytes data => some data
  | .words data => some (data.flatMap littleEndian)
  | _ => none

/-- The bytes of statements one behind the other, if all of them have some. -/
def codeFrom (pass : Pass) (address : Nat) : List Statement → Option (List UInt8)
  | [] => some []
  | statement :: rest => do
    let code ← statement.code? pass address
    let behind ← codeFrom pass (address + statement.size) rest
    return code ++ behind

variable {address : Nat} {statement : Statement} {pass : Pass}

theorem Canonical.exists_code (h : statement.Canonical address) (pass : Pass) :
    ∃ code, statement.code? pass address = some code := by
  cases statement with
  | instruction i =>
    obtain ⟨code, hcode⟩ := Instruction.Canonical.exists_encode h pass
    refine ⟨code, ?_⟩
    rw [code?, hcode]
    rfl
  | bytes data => exact ⟨data, rfl⟩
  | words data => exact ⟨data.flatMap littleEndian, rfl⟩
  | _ => exact h.elim

theorem encode_of_code? {i : Instruction} {code : List UInt8}
    (h : (instruction i).code? pass address = some code) :
    i.encode pass (Int32.ofNat address) = .ok code := by
  change (i.encode pass (Int32.ofNat address)).toOption = some code at h
  cases hresult : i.encode pass (Int32.ofNat address) with
  | error e =>
    rw [hresult] at h
    cases h
  | ok bytes =>
    rw [hresult] at h
    cases h
    rfl

/-- The bytes of a list of instructions are decoded to it. -/
theorem decodeAll_codeFrom {instructions : List Instruction} {code : List UInt8}
    (h : CanonicalFrom address (instructions.map .instruction))
    (hcode : codeFrom .second address (instructions.map .instruction) = some code) :
    Instruction.decodeAll (Int32.ofNat address) code = some instructions := by
  -- the address moves on with the size of each instruction
  induction instructions generalizing address code with
  | nil =>
    cases hcode
    exact Instruction.decodeAll_nil _
  | cons i rest ih =>
    obtain ⟨first, hfirst, hcode⟩ := Option.bind_eq_some_iff.mp hcode
    obtain ⟨behind, hbehind, hcode⟩ := Option.bind_eq_some_iff.mp hcode
    cases hcode
    have hdecode := Instruction.decode_encode h.1 (encode_of_code? hfirst) behind
    have hrest : Instruction.decodeAll (Int32.ofNat (address + i.mode.size)) behind = some rest :=
      ih h.2 hbehind
    rw [Int32.ofNat_add] at hrest
    rw [Instruction.decodeAll_of_decode hdecode, hrest]
    rfl

end Statement

/-! ### Images without a bound -/

namespace Emitter

/-- The image is made of the bytes alone and is never full. -/
structure Open (e : Emitter) : Prop where
  format : e.format = .raw
  room : e.writer.room = none

/-- The image with more bytes behind it. -/
def appended (e : Emitter) (output : List UInt8) : Emitter :=
  ⟨e.format, ⟨e.writer.written ++ output, e.writer.room⟩, e.size + output.length⟩

variable {e : Emitter}

theorem appended_nil (e : Emitter) : e.appended [] = e := by
  unfold appended
  rw [List.append_nil]
  rfl

theorem appended_append (e : Emitter) (a b : List UInt8) :
    (e.appended a).appended b = e.appended (a ++ b) := by
  simp only [appended, List.append_assoc, List.length_append, Nat.add_assoc]

theorem Open.appended (h : e.Open) (output : List UInt8) : (e.appended output).Open :=
  ⟨h.format, h.room⟩

theorem Open.put (h : e.Open) (output : List UInt8) :
    put output output.length e = .ok () (e.appended output) := by
  unfold Emitter.put Writer.write Emitter.appended
  rw [h.room]

theorem Open.instruction (h : e.Open) (address : Int32) (output : List UInt8) :
    instruction address output e = .ok () (e.appended output) := by
  show Emitter.put (e.format.instruction address output) output.length e = _
  rw [h.format]
  exact h.put output

theorem Open.data (h : e.Open) (address : Int32) (output : List UInt8) :
    data address output e = .ok () (e.appended output) := by
  show Emitter.put (e.format.data address output) output.length e = _
  rw [h.format]
  exact h.put output

end Emitter

namespace Assembly

variable {setting : Setting} {s : State} {address : Nat} {statement : Statement}

/-! ### Carrying out a statement -/

theorem emit_of_open {output : EStateM FileError Emitter Unit} {code : List UInt8}
    (hopen : ∀ e ∈ s.image, e.Open)
    (houtput : ∀ e : Emitter, e.Open → output e = .ok () (e.appended code)) :
    emit output s = .ok () { s with image := s.image.map (·.appended code) } := by
  unfold emit
  cases himage : s.image with
  | none =>
    show EStateM.Result.ok () s = .ok () { s with image := none }
    rw [← himage]
  | some e =>
    dsimp only
    rw [houtput e (hopen e himage)]
    rfl

/-- A canonical statement adds its bytes to the image, and the next one is behind it. -/
theorem execute_canonical (h : statement.Canonical address) {code : List UInt8}
    (hcode : statement.code? setting.pass address = some code)
    (haddress : s.address = Int32.ofNat address) (hopen : ∀ e ∈ s.image, e.Open) :
    execute setting statement s = .ok ()
      { s with
        image := s.image.map (·.appended code)
        address := Int32.ofNat (address + statement.size)
        placed := true } := by
  have hdata : ∀ data : List UInt8, executeData data s = .ok ()
      { s with
        image := s.image.map (·.appended data)
        address := s.address + Int32.ofNat data.length
        placed := true } := by
    intro data
    show EStateM.bind (emit (Emitter.data s.address data)) _ s = _
    rw [EStateM.bind, emit_of_open hopen fun e he => he.data s.address data]
    rfl
  rw [Int32.ofNat_add, ← haddress]
  cases statement with
  | instruction i =>
    have hencode : i.encode setting.pass s.address = .ok code := by
      rw [haddress]
      exact Statement.encode_of_code? hcode
    have hemit := emit_of_open hopen fun e he => he.instruction s.address code
    simp only [execute, executeInstruction, Bind.bind, EStateM.bind, get, getThe, MonadStateOf.get,
      get_eq, hencode, hemit, Instruction.length_encode hencode]
    rfl
  | bytes data =>
    cases hcode
    exact hdata code
  | words data =>
    cases hcode
    show executeData (wordBytes data) s = _
    rw [hdata, length_wordBytes, wordBytes_eq]
    rfl
  | _ => exact h.elim

/-! ### Steps -/

/-- The state in front of a text that ends the only file. -/
structure State.InFront (address : Nat) (text : List Char) (s : State) : Prop where
  cursor : s.files.current.cursor.At ⟨true, text⟩
  alone : s.files.outer = []
  address : s.address = Int32.ofNat address
  image : ∀ e ∈ s.image, e.Open

/-- What a listing changes nothing of, and what it adds to the image. -/
structure State.Added (s t : State) (code : List UInt8) : Prop where
  scopes : t.scopes = s.scopes
  errors : t.errors = s.errors
  image : t.image = s.image.map (·.appended code)

theorem State.Added.trans {t u : State} {a b : List UInt8} (h : s.Added t a) (h' : t.Added u b) :
    s.Added u (a ++ b) where
  scopes := h'.scopes.trans h.scopes
  errors := h'.errors.trans h.errors
  image := by
    rw [h'.image, h.image, Option.map_map]
    congr 1
    funext e
    exact e.appended_append a b

/-- In front of a line of a listing, a step carries out its statement. -/
theorem step_canonical {rest : List Char} (hs : s.InFront address (statement.text ++ rest))
    (h : statement.Canonical address) {code : List UInt8}
    (hcode : statement.code? setting.pass address = some code) :
    ∃ u, step setting s = .next u ∧ u.InFront (address + statement.size) rest ∧
      s.Added u code := by
  have hyields : Parser.Yields (Statement.parse (s.context setting))
      ⟨true, statement.text ++ rest⟩ statement ⟨true, rest⟩ := Statement.parse_yields h rest
  obtain ⟨cursor, hparse, hcursor⟩ := hyields s.reading hs.cursor
  -- what is read is neither the end of the file nor an error
  have hstep : step setting s =
      carryOut setting statement (s.resume { s.reading with cursor }) := by
    unfold step
    rw [hparse]
    cases statement with
    | endOfInput => exact h.elim
    | undefined => exact h.elim
    | _ => rfl
  have hexecute := execute_canonical (s := s.resume { s.reading with cursor }) h hcode hs.address
    hs.image
  rw [carryOut, hexecute] at hstep
  refine ⟨_, hstep, ⟨hcursor, hs.alone, rfl, ?_⟩, ⟨rfl, rfl, rfl⟩⟩
  intro e he
  obtain ⟨e', he', rfl⟩ := Option.map_eq_some_iff.mp he
  exact (hs.image e' he').appended code

/-- At the end of the only file, a step ends the pass. -/
theorem step_endOfInput (hcursor : s.files.current.cursor.At ⟨true, []⟩)
    (halone : s.files.outer = []) (hclosed : setting.pass = .first → s.scopes.depth = 0) :
    ∃ cursor, step setting s = .finished (s.resume { s.reading with cursor }) := by
  have hyields : Parser.Yields (Statement.parse (s.context setting)) ⟨true, []⟩ .endOfInput
      ⟨false, []⟩ := Statement.parse_yields_endOfInput
  obtain ⟨cursor, hparse, -⟩ := hyields s.reading hcursor
  have hlast : (s.resume { s.reading with cursor }).files.pop? = none := by
    unfold OpenFiles.pop?
    split
    · rfl
    · next houter =>
      have hnone : s.files.outer = _ := houter
      rw [halone] at hnone
      cases hnone
  refine ⟨cursor, ?_⟩
  unfold step
  rw [hparse]
  dsimp only
  rw [endFile, hlast]
  dsimp only
  rw [State.finish, if_neg]
  -- a scope that is open would be noted here
  rintro ⟨hfirst, hopen⟩
  exact hopen (hclosed hfirst)

/-- Behind the last line, a step ends the pass. -/
theorem step_end (hs : s.InFront address [])
    (hclosed : setting.pass = .first → s.scopes.depth = 0) :
    ∃ t, step setting s = .finished t ∧ s.Added t [] := by
  obtain ⟨cursor, hstep⟩ := step_endOfInput hs.cursor hs.alone hclosed
  refine ⟨_, hstep, rfl, rfl, ?_⟩
  show s.image = _
  cases s.image with
  | none => rfl
  | some e => exact congrArg some (e.appended_nil).symm

/-! ### Passes -/

/-- A pass over a listing succeeds and adds the bytes of its statements to the image. -/
theorem run_canonical {statements : List Statement}
    (h : Statement.CanonicalFrom address statements)
    (hs : s.InFront address (Statement.listingText statements))
    (hclosed : setting.pass = .first → s.scopes.depth = 0) :
    ∃ code t, Statement.codeFrom setting.pass address statements = some code ∧
      run setting s = .ok () t ∧ s.Added t code := by
  induction statements generalizing address s with
  | nil =>
    obtain ⟨t, hstep, hadded⟩ := step_end hs hclosed
    exact ⟨[], t, rfl, run_of_finished hstep, hadded⟩
  | cons statement rest ih =>
    obtain ⟨first, hfirst⟩ := h.1.exists_code setting.pass
    obtain ⟨u, hstep, hu, hadded⟩ := step_canonical hs h.1 hfirst
    obtain ⟨behind, t, hbehind, hrun, hadded'⟩ :=
      ih h.2 hu fun hpass => by rw [hadded.scopes]; exact hclosed hpass
    refine ⟨first ++ behind, t, ?_, (run_of_next hstep).trans hrun, hadded.trans hadded'⟩
    rw [Statement.codeFrom, hfirst, hbehind]
    rfl

end Assembly

namespace Session

open Assembler6502.Assembly

variable {disk : Disk} {s : Session} {statements : List Statement}

/-- A session comes to the text of a source with its origin as the address. -/
theorem inFront_initial (s : Session) (name : String) (path : Option String) (text : List Char)
    {image : Option Emitter} (himage : ∀ e ∈ image, e.Open) :
    (s.initial ⟨name, path, Byte.ofChars text⟩ image).InFront s.options.origin.toNat text where
  cursor := ⟨rfl, rfl⟩
  alone := rfl
  address := (Instruction.ofNat_eq (toInt_word s.options.origin).symm).symm
  image := himage

/-- A pass of a session over a listing. -/
theorem runPass_canonical (h : Statement.CanonicalFrom s.options.origin.toNat statements)
    (pass : Pass) (disk : Disk) (name : String) (path : Option String) {image : Option Emitter}
    (himage : ∀ e ∈ image, e.Open) :
    ∃ code t, Statement.codeFrom pass s.options.origin.toNat statements = some code ∧
      s.runPass pass disk ⟨name, path, Byte.ofChars (Statement.listingText statements)⟩ image =
        .ok () t ∧ t.image = image.map (·.appended code) := by
  have hinitial := s.inFront_initial name path (Statement.listingText statements) himage
  have hclosed : (s.setting pass disk).pass = .first →
      (s.initial ⟨name, path, Byte.ofChars (Statement.listingText statements)⟩ image).scopes.depth =
        0 := fun _ => rfl
  obtain ⟨code, t, hcode, hrun, hadded⟩ := run_canonical h hinitial hclosed
  refine ⟨code, t, hcode, ?_, hadded.image⟩
  rw [runPass, hrun]
  exact if_pos hadded.errors

/-- Assembling a listing gives the bytes of its statements, and a listing of instructions is what
its bytes are decoded to. -/
theorem assembleBytes_listing (disk : Disk) (hraw : s.options.format = .raw)
    (h : Statement.CanonicalFrom s.options.origin.toNat statements) :
    ∃ code s', Statement.codeFrom .second s.options.origin.toNat statements = some code ∧
      assembleBytes disk (Byte.ofChars (Statement.listingText statements)) s = .ok code s' ∧
      ∀ instructions, statements = instructions.map .instruction →
        Instruction.decodeAll (Int32.ofNat s.options.origin.toNat) code = some instructions := by
  have hnone : ∀ e ∈ (none : Option Emitter), e.Open := fun _ he => nomatch he
  obtain ⟨_, middle, -, hfirst, -⟩ :=
    runPass_canonical (s := s.reset) h .first disk "<source>" none hnone
  have hpass : firstPass disk
      (.text "<source>" (Byte.ofChars (Statement.listingText statements))) s =
        .ok middle.start.toUInt32.toUInt16 (s.between middle) := firstPass_of_runPass rfl hfirst
  -- the image is empty before the second pass, and the names that it starts with do not matter
  have hopen : Emitter.Open ⟨.raw, ⟨[], none⟩, 0⟩ := ⟨rfl, rfl⟩
  have hbegin : Emitter.begin middle.start.toUInt32.toUInt16
      (.start (s.between middle).options.format (.ofCapacity none)) =
        .ok () ⟨.raw, ⟨[], none⟩, 0⟩ := by
    show Emitter.begin _ (.start s.options.format _) = _
    rw [hraw]
    rfl
  obtain ⟨code, last, hcode, hsecond, himage⟩ :=
    runPass_canonical (s := s.between middle) h .second disk "<source>" none
      (fun e he => Option.some.inj he ▸ hopen)
  refine ⟨code, (s.between middle).resume last, hcode, ?_, ?_⟩
  · unfold assembleBytes assemble
    rw [hpass]
    dsimp only
    rw [secondPass_eq, hbegin]
    dsimp only [Input.source]
    rw [hsecond]
    dsimp only
    rw [himage]
    rfl
  · rintro instructions rfl
    exact Statement.decodeAll_codeFrom h hcode

/-- A loop with a branch back to it, and an instruction in its long form because of its operand. -/
def loopInstructions : List Instruction :=
  [⟨.ldx, .immediate, 5⟩, ⟨.dex, .implied, 0⟩, ⟨.sta, .absoluteX, 0x400⟩, ⟨.rol, .accumulator, 0⟩,
    ⟨.lda, .indirectY, 0xfb⟩, ⟨.bne, .relative, 0x1002⟩, ⟨.jmp, .indirect, 0xfffc⟩]

/-- The loop as it is printed, assembled and decoded. -/
theorem assembleBytes_listing_loop :
    Statement.CanonicalFrom 0x1000 (loopInstructions.map .instruction) ∧
      String.ofList (Statement.listingText (loopInstructions.map .instruction)) =
        " ldx #$05\n dex\n sta $0400,x\n rol a\n lda ($fb),y\n bne $1002\n jmp ($fffc)\n" ∧
      ∃ code s', code = [0xa2, 0x05, 0xca, 0x9d, 0x00, 0x04, 0x2a, 0xb1, 0xfb, 0xd0, 0xf7, 0x6c,
          0xfc, 0xff] ∧
        assembleBytes (.empty [])
          (Byte.ofChars (Statement.listingText (loopInstructions.map .instruction))) (.start {}) =
            .ok code s' ∧
        Instruction.decodeAll 0x1000 code = some loopInstructions := by
  have hcanonical : Statement.CanonicalFrom 0x1000 (loopInstructions.map .instruction) := by
    decide +kernel
  obtain ⟨code, s', hcode, hrun, hdecode⟩ :=
    assembleBytes_listing (s := .start {}) (.empty []) rfl hcanonical
  refine ⟨hcanonical, by decide +kernel, code, s', ?_, hrun, hdecode _ rfl⟩
  refine Option.some.inj (hcode.symm.trans ?_)
  show Statement.codeFrom .second 0x1000 _ = _
  decide +kernel

end Session

end Assembler6502
