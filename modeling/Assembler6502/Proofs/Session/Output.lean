/-
What a run writes in any format.

What a statement adds to the output depends on the format, but else only on its
code and its address.  The trace of a run lists the code of its statements, so
it tells of the image that the same statements lay out.

* **`Visit.output`** — what a statement of the second pass adds to the output;
* **`Clean.outputs`** — what a run adds to it;
* **`Visit.entries`** — the lines of the trace for a statement;
* **`fileOf`** — what statements are written as in a format;
* **`Clean.code_ne_nil`** — every statement that places bytes places at least one;
* **`LaidOut.shows`** — the trace tells of the image.
-/
import Assembler6502.Proofs.Expression.Agreement
import Assembler6502.Proofs.Machine.Encoding
import Assembler6502.Proofs.Session.ImageLayout
import Assembler6502.Proofs.Text.Trace
import Assembler6502.Proofs.Token.Lines

namespace Assembler6502

/-! ### Data are not empty -/

/-- Text in quotes is not empty. -/
theorem Cursor.ne_nil_of_next {c d : Cursor} {text : List UInt8} {p : Position}
    (h : c.next = (.ok ⟨.quoted text, p⟩, d)) : text ≠ [] := by
  rintro rfl
  unfold next at h
  dsimp only at h
  split at h
  · cases h
  · by_cases hrest : c.toToken.begin.rest = []
    · rw [scan_of_nil hrest] at h
      cases h
    · have hregular := scan_regular hrest
      split at h
      · next l read hscan =>
        cases h
        have hproper := hregular.lexeme (.quoted []) (by rw [hscan])
        cases hproper
      · cases h

namespace Statement

variable {c : Context} {r r' : Reading}

theorem sequence_ne_nil {α : Type} {element : Parser (List α)} {data : List α}
    (helement : ∀ {r r' : Reading} {x : List α}, element r = .ok x r' → x ≠ [])
    (h : sequence element r = .ok data r') : data ≠ [] := by
  obtain ⟨n, r₁, -, h⟩ := bind_eq_ok h
  obtain ⟨first, r₂, hfirst, h⟩ := bind_eq_ok h
  obtain ⟨more, r₃, -, h⟩ := bind_eq_ok h
  cases more with
  | false =>
    cases h
    exact helement hfirst
  | true =>
    obtain ⟨rest, r₄, -, h⟩ := bind_eq_ok h
    cases h
    exact List.append_ne_nil_of_left_ne_nil (helement hfirst) rest

theorem byteElement_ne_nil {x : List UInt8} (h : byteElement c r = .ok x r') : x ≠ [] := by
  obtain ⟨t, r₁, hpeek, h⟩ := bind_eq_ok h
  obtain ⟨⟨l, p⟩, cursor, hnext, rfl, -⟩ := Parser.peek_eq_ok hpeek
  cases l with
  | quoted text =>
    obtain ⟨_, r₂, -, h⟩ := bind_eq_ok h
    cases h
    have htext := Cursor.ne_nil_of_next hnext
    simpa [CharacterSet.codes] using htext
  | _ =>
    obtain ⟨value, r₂, -, h⟩ := bind_eq_ok h
    obtain ⟨_, r₃, -, h⟩ := bind_eq_ok h
    cases h
    exact List.cons_ne_nil _ _

theorem wordElement_ne_nil {x : List UInt16} (h : wordElement c r = .ok x r') : x ≠ [] := by
  obtain ⟨value, r₁, -, h⟩ := bind_eq_ok h
  obtain ⟨_, r₂, -, h⟩ := bind_eq_ok h
  cases h
  exact List.cons_ne_nil _ _

theorem parse_bytes_ne_nil {data : List UInt8} (h : parse c r = .ok (.bytes data) r') :
    data ≠ [] := by
  obtain ⟨⟨lexeme, p⟩, r₁, -, h⟩ := bind_eq_ok h
  cases parseFrom_begins h with
  | bytes =>
    obtain ⟨data', r₂, hdata, h⟩ := bind_eq_ok h
    cases h
    exact sequence_ne_nil byteElement_ne_nil hdata

theorem parse_words_ne_nil {data : List UInt16} (h : parse c r = .ok (.words data) r') :
    data ≠ [] := by
  obtain ⟨⟨lexeme, p⟩, r₁, -, h⟩ := bind_eq_ok h
  cases parseFrom_begins h with
  | words =>
    obtain ⟨data', r₂, hdata, h⟩ := bind_eq_ok h
    cases h
    exact sequence_ne_nil wordElement_ne_nil hdata

end Statement

namespace Assembly

variable {setting : Setting} {statement : Statement} {s t u : State} {e : Emitter}
  {vs : List Visit}

theorem Visit.code_of_encode {i : Instruction} {bytes : List UInt8}
    (h : i.encode .second s.address = .ok bytes) : Visit.code ⟨s, .instruction i⟩ = bytes := by
  unfold Visit.code
  dsimp only
  rw [h]

/-- A statement that places bytes places at least one. -/
theorem Effect.code_ne_nil {r : Reading} (h : Effect setting statement (s.resume r) u)
    (hpass : setting.pass = .second)
    (hparse : Statement.parse (s.context setting) s.reading = .ok statement r)
    (hplaces : statement.places = true) : Visit.code ⟨s, statement⟩ ≠ [] := by
  cases h with
  | @instruction i _ bytes _ code output =>
    have hcode : Visit.code ⟨s, .instruction i⟩ = bytes := Visit.code_of_encode (hpass ▸ code)
    rw [hcode]
    rintro rfl
    have hlength := Instruction.length_encode code
    revert hlength
    generalize i.mode = mode
    cases mode <;> nofun
  | bytes output => exact Statement.parse_bytes_ne_nil hparse
  | @words data _ _ output =>
    have hdata := Statement.parse_words_ne_nil hparse
    show data.flatMap littleEndian ≠ []
    obtain ⟨w, rest, rfl⟩ := List.exists_cons_of_ne_nil hdata
    exact List.cons_ne_nil _ _
  | _ => cases hplaces

theorem Clean.code_ne_nil (h : Clean setting s vs t) (hpass : setting.pass = .second) :
    ∀ v ∈ placing vs, v.code ≠ [] := by
  induction h with
  | finish => exact fun v hv => absurd hv List.not_mem_nil
  | close _ _ _ ih => exact ih
  | @carry s t u statement r vs parsed effect _ ih =>
    intro v hv
    cases hplaces : statement.places with
    | true =>
      rw [placing_cons_of_places hplaces] at hv
      rcases List.mem_cons.mp hv with rfl | hv
      · exact effect.code_ne_nil hpass parsed hplaces
      · exact ih v hv
    | false =>
      rw [placing_cons_of_not_places hplaces] at hv
      exact ih v hv

/-! ### Output -/

/-- What a statement of the second pass adds to the output. -/
def Visit.output (f : Format) (v : Visit) : List UInt8 :=
  match v.statement with
  | .instruction _ => f.instruction v.before.address v.code
  | .bytes _ | .words _ => f.data v.before.address v.code
  | .origin x => if v.before.placed then f.fill (x - v.before.address).toNatClampNeg else []
  | _ => []

theorem Effect.outputs (h : Effect setting statement s u) (hpass : setting.pass = .second)
    (himage : s.image = some e) :
    ∃ e', u.image = some e' ∧ e'.format = e.format ∧
      e'.writer.written = e.writer.written ++ Visit.output e.format ⟨s, statement⟩ := by
  cases hplaces : statement.places with
  | true =>
    cases h with
    | @instruction i _ bytes _ code output =>
      have hcode : Visit.code ⟨s, .instruction i⟩ = bytes := Visit.code_of_encode (hpass ▸ code)
      rw [himage] at output
      obtain ⟨e', hput, rfl⟩ := output
      obtain ⟨hformat, hwritten, -⟩ := Emitter.put_eq_ok hput
      refine ⟨e', rfl, hformat, ?_⟩
      rw [hwritten, Visit.output, hcode]
    | bytes output =>
      rw [himage] at output
      obtain ⟨e', hput, rfl⟩ := output
      obtain ⟨hformat, hwritten, -⟩ := Emitter.put_eq_ok hput
      exact ⟨e', rfl, hformat, hwritten⟩
    | words output =>
      rw [wordBytes_eq] at output
      rw [himage] at output
      obtain ⟨e', hput, rfl⟩ := output
      obtain ⟨hformat, hwritten, -⟩ := Emitter.put_eq_ok hput
      exact ⟨e', rfl, hformat, hwritten⟩
    | _ => cases hplaces
  | false =>
    -- of the others, an origin alone may write, and it fills a gap
    by_cases horigin : ∃ x, statement = .origin x
    · obtain ⟨x, rfl⟩ := horigin
      cases h with
      | firstOrigin pass =>
        rw [hpass] at pass
        cases pass
      | secondOrigin _ _ output =>
        cases hplaced : s.placed with
        | true =>
          rw [if_pos hplaced, himage] at output
          obtain ⟨e', hput, rfl⟩ := output
          obtain ⟨hformat, hwritten, -⟩ := Emitter.put_eq_ok hput
          refine ⟨e', rfl, hformat, ?_⟩
          rw [hwritten]
          simp [Visit.output, hplaced]
        | false =>
          rw [hplaced] at output
          refine ⟨e, output.trans himage, rfl, ?_⟩
          simp [Visit.output, hplaced]
    · obtain ⟨himage', -, -⟩ := h.still hplaces fun x hx => horigin ⟨x, hx⟩
      refine ⟨e, himage'.trans himage, rfl, ?_⟩
      have hnone : Visit.output e.format ⟨s, statement⟩ = [] := by
        cases statement with
        | instruction | bytes | words => cases hplaces
        | origin x => exact absurd ⟨x, rfl⟩ horigin
        | _ => rfl
      rw [hnone, List.append_nil]

/-- What a run adds to the output. -/
theorem Clean.outputs (h : Clean setting s vs t) (hpass : setting.pass = .second)
    (himage : s.image = some e) :
    ∃ e', t.image = some e' ∧ e'.format = e.format ∧
      e'.writer.written = e.writer.written ++ vs.flatMap (Visit.output e.format) := by
  induction h generalizing e with
  | finish => exact ⟨e, himage, rfl, (List.append_nil _).symm⟩
  | close _ _ _ ih => exact ih himage
  | @carry s t u statement r vs _ effect _ ih =>
    obtain ⟨e₁, himage₁, hformat, hwritten⟩ := effect.outputs hpass himage
    obtain ⟨e₂, himage₂, hformat', hwritten'⟩ := ih himage₁
    refine ⟨e₂, himage₂, hformat'.trans hformat, ?_⟩
    rw [hwritten', hwritten, hformat, List.append_assoc]
    rfl

/-! ### The trace -/

/-- The lines of the trace for a statement. -/
def Visit.entries (v : Visit) : List Trace.Entry :=
  match v.statement with
  | .instruction _ => [⟨v.before.address.toUInt32.toNat, v.code⟩]
  | .bytes _ | .words _ => Trace.dataEntries v.before.address v.code
  | _ => []

theorem Visit.output_screen (v : Visit) : v.output .screen = Trace.text v.entries := by
  unfold Visit.output Visit.entries
  cases v.statement with
  | instruction i => exact Trace.traceLine_eq _ _
  | bytes data => exact Trace.traceData_eq _ _
  | words data => exact Trace.traceData_eq _ _
  | origin x =>
    dsimp only
    split <;> rfl
  | _ => rfl

theorem flatMap_output_screen (vs : List Visit) :
    vs.flatMap (Visit.output .screen) = Trace.text (vs.flatMap Visit.entries) := by
  rw [Trace.text, List.flatMap_assoc]
  exact congrArg (vs.flatMap ·) (funext Visit.output_screen)

/-- What statements are written as: a header, and their output. -/
def fileOf (start : UInt16) (vs : List Visit) (f : Format) : List UInt8 :=
  f.header start ++ vs.flatMap (Visit.output f)

/-- The load address stands in front of the bytes alone. -/
theorem fileOf_c64 (start : UInt16) (vs : List Visit) :
    fileOf start vs .c64 = littleEndian start ++ fileOf start vs .raw := by
  rw [fileOf, Format.header_c64]
  rfl

theorem fileOf_screen (start : UInt16) (vs : List Visit) :
    fileOf start vs .screen = Trace.text (vs.flatMap Visit.entries) :=
  flatMap_output_screen vs

theorem Visit.entries_of_not_places {v : Visit} (h : v.statement.places = false) :
    v.entries = [] := by
  unfold Visit.entries
  cases hstatement : v.statement with
  | instruction | bytes | words =>
    rw [hstatement] at h
    cases h
  | _ => rfl

/-- Only statements that place bytes are traced. -/
theorem flatMap_entries_eq (vs : List Visit) :
    vs.flatMap Visit.entries = (placing vs).flatMap Visit.entries := by
  induction vs with
  | nil => rfl
  | cons v vs ih =>
    cases hplaces : v.statement.places with
    | true => rw [placing_cons_of_places hplaces, List.flatMap_cons, List.flatMap_cons, ih]
    | false =>
      rw [placing_cons_of_not_places hplaces, List.flatMap_cons, ih,
        Visit.entries_of_not_places hplaces, List.nil_append]

theorem Visit.toNat_address {v : Visit} (h : 0 ≤ v.start) :
    v.before.address.toUInt32.toNat = v.start.toNat := by
  have hnat := Instruction.toNat_toUInt32 h
  rw [Visit.start]
  omega

/-- Data are listed from their address on. -/
theorem mem_listed_dataEntries {address : Int32} {bytes : List UInt8} {a : Nat} {b : UInt8}
    (hstart : 0 ≤ address.toInt) (hstop : address.toInt + bytes.length < 0x80000000) :
    (a, b) ∈ Trace.listed (Trace.dataEntries address bytes) ↔
      ∃ i, bytes[i]? = some b ∧ a = address.toUInt32.toNat + i := by
  induction bytes generalizing address with
  | nil => simp [Trace.dataEntries, Trace.listed]
  | cons byte rest ih =>
    have hnext : (address + 1).toInt = address.toInt + 1 := by
      simp only [List.length_cons] at hstop
      exact toInt_add_ofNat (n := 1) hstart (by omega)
    have hhere := Instruction.toNat_toUInt32 hstart
    have hthere := Instruction.toNat_toUInt32 (v := address + 1) (by omega)
    have hrest : (a, b) ∈ Trace.listed (Trace.dataEntries (address + 1) rest) ↔
        ∃ i, rest[i]? = some b ∧ a = (address + 1).toUInt32.toNat + i := by
      refine ih (by omega) ?_
      simp only [List.length_cons] at hstop
      omega
    rw [Trace.dataEntries, Trace.listed, List.flatMap_cons, List.mem_append, Trace.Entry.mem_listed]
    change _ ∨ (a, b) ∈ Trace.listed (Trace.dataEntries (address + 1) rest) ↔ _
    rw [hrest]
    constructor
    · rintro (⟨i, hi, rfl⟩ | ⟨i, hi, rfl⟩)
      · cases i with
        | zero => exact ⟨0, hi, rfl⟩
        | succ i => simp at hi
      · exact ⟨i + 1, hi, by omega⟩
    · rintro ⟨i, hi, rfl⟩
      cases i with
      | zero => exact .inl ⟨0, hi, rfl⟩
      | succ i => exact .inr ⟨i, hi, by omega⟩

/-- The trace lists the code of a statement from its address on. -/
theorem Visit.mem_listed_entries {v : Visit} {a : Nat} {b : UInt8}
    (hplaces : v.statement.places = true) (hstart : 0 ≤ v.start) (hstop : v.stop < 0x80000000) :
    (a, b) ∈ Trace.listed v.entries ↔ ∃ i, v.code[i]? = some b ∧ a = v.start.toNat + i := by
  rw [← Visit.toNat_address hstart]
  unfold Visit.entries
  cases hstatement : v.statement with
  | instruction i =>
    dsimp only
    rw [Trace.listed, List.flatMap_singleton, Trace.Entry.mem_listed]
  | bytes data => exact mem_listed_dataEntries hstart hstop
  | words data => exact mem_listed_dataEntries hstart hstop
  | _ =>
    rw [hstatement] at hplaces
    cases hplaces

theorem mem_listed_placing (hrange : InRange vs) {a : Nat} {b : UInt8} :
    (a, b) ∈ Trace.listed (vs.flatMap Visit.entries) ↔
      ∃ v ∈ placing vs, ∃ i, v.code[i]? = some b ∧ a = v.start.toNat + i := by
  rw [flatMap_entries_eq, Trace.listed, List.flatMap_assoc, List.mem_flatMap]
  refine exists_congr fun v => and_congr_right fun hv => ?_
  obtain ⟨hmem, hplaces⟩ := List.mem_filter.mp hv
  exact Visit.mem_listed_entries hplaces (hrange v hmem).1 (hrange v hmem).2

/-- The trace begins with the first statement that places bytes. -/
theorem start_entries {first : Visit} {rest : List Visit} (hplacing : placing vs = first :: rest)
    (hstart : 0 ≤ first.start) (hcode : first.code ≠ []) :
    Trace.start (vs.flatMap Visit.entries) = first.start.toNat := by
  have hplaces : first.statement.places = true := by
    have hmem : first ∈ placing vs := by rw [hplacing]; exact List.mem_cons_self
    exact (List.mem_filter.mp hmem).2
  have hhead : ∃ bytes others,
      first.entries = ⟨first.before.address.toUInt32.toNat, bytes⟩ :: others := by
    unfold Visit.entries
    obtain ⟨byte, code, hcons⟩ := List.exists_cons_of_ne_nil hcode
    cases hstatement : first.statement with
    | instruction i => exact ⟨_, _, rfl⟩
    | bytes data =>
      rw [hcons]
      exact ⟨_, _, rfl⟩
    | words data =>
      rw [hcons]
      exact ⟨_, _, rfl⟩
    | _ =>
      rw [hstatement] at hplaces
      cases hplaces
  obtain ⟨bytes, others, hentries⟩ := hhead
  rw [flatMap_entries_eq, hplacing, List.flatMap_cons, hentries,
    ← Visit.toNat_address hstart]
  rfl

namespace Holds

variable {start : Int} {image : List UInt8}

/-- Every byte of the code of a statement is in the image at its address. -/
theorem getElem?_code (h : Holds start vs image) {v : Visit} (hv : v ∈ vs) {i : Nat} {b : UInt8}
    (hi : v.code[i]? = some b) : ∃ k : Nat, image[k]? = some b ∧ v.start + i = start + k := by
  obtain ⟨before, behind, himage, hstart⟩ := h.code v hv
  have hlt : i < v.code.length := (List.getElem?_eq_some_iff.mp hi).1
  refine ⟨before.length + i, ?_, by omega⟩
  rw [himage, List.append_assoc, List.getElem?_append_right (Nat.le_add_right _ _),
    Nat.add_sub_cancel_left, List.getElem?_append_left hlt]
  exact hi

/-- A byte that is in the code of no statement is zero. -/
theorem eq_zero (h : Holds start vs image) {k : Nat} {byte : UInt8} (hk : image[k]? = some byte)
    (hnone : ∀ v ∈ vs, ∀ (i : Nat) (b : UInt8), v.code[i]? = some b → v.start + i ≠ start + k) :
    byte = 0 := by
  refine h.gaps k byte hk fun v hv => Decidable.byContradiction fun hcovers => ?_
  have hi : (start + k - v.start).toNat < v.code.length := by
    unfold Visit.stop at hcovers
    omega
  exact hnone v hv _ _ (List.getElem?_eq_getElem hi) (by omega)

end Holds

/-- The trace of statements tells of the image that they lay out, and the image reaches up to the
last address. -/
theorem LaidOut.shows {last : Int32} {image : List UInt8} (h : LaidOut vs last image)
    (hrange : InRange vs) (hcode : ∀ v ∈ placing vs, v.code ≠ []) :
    Trace.Shows (vs.flatMap Visit.entries) image ∧
      (vs.flatMap Visit.entries ≠ [] →
        last.toInt = Trace.start (vs.flatMap Visit.entries) + image.length) := by
  unfold LaidOut at h
  cases hplacing : placing vs with
  | nil =>
    rw [hplacing] at h
    have hentries : vs.flatMap Visit.entries = [] := by
      rw [flatMap_entries_eq, hplacing]
      rfl
    rw [hentries, show image = [] from h]
    exact ⟨⟨nofun, fun a _ ha => absurd ha (by simp [Trace.start])⟩, fun hne => absurd rfl hne⟩
  | cons first rest =>
    rw [hplacing] at h
    obtain ⟨hholds, hlast⟩ := h
    rw [← hplacing] at hholds
    have hfirst : first ∈ placing vs := by rw [hplacing]; exact List.mem_cons_self
    have hbound : ∀ v ∈ placing vs, 0 ≤ v.start := fun v hv =>
      (hrange v (List.mem_filter.mp hv).1).1
    have hnonneg := hbound first hfirst
    have hstart := start_entries hplacing hnonneg (hcode first hfirst)
    refine ⟨⟨?_, ?_⟩, fun _ => by omega⟩
    -- a byte that is listed is code of a statement
    · intro a b hmem
      obtain ⟨v, hv, i, hi, rfl⟩ := (mem_listed_placing hrange).mp hmem
      obtain ⟨k, hk, haddress⟩ := hholds.getElem?_code hv hi
      have hv' := hbound v hv
      rw [hstart, show v.start.toNat + i - first.start.toNat = k by omega]
      exact ⟨by omega, hk⟩
    -- one that is not listed is in a gap
    · intro a ha hlt hnone
      rw [hstart] at ha hlt ⊢
      have hbyte := List.getElem?_eq_getElem (show a - first.start.toNat < image.length by omega)
      rw [hbyte]
      refine congrArg some (hholds.eq_zero hbyte fun v hv i b hi haddress => ?_)
      have hv' := hbound v hv
      exact hnone b ((mem_listed_placing hrange).mpr ⟨v, hv, i, hi, by omega⟩)

end Assembly

end Assembler6502
