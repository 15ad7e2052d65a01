/-
The layout of an image.

The image of a run begins with the first statement that places bytes.  From
there on every byte of it belongs to an address: the code of a statement stands
at the address of the statement, and what an origin leaves out is filled with
zeros.

* **`Holds`** — an image has the code of statements at their addresses, in
  their order, and zeros elsewhere;
* **`Effect.writes_code`**, **`Effect.writes_gap`** — what one statement writes;
* **`Clean.adds`** — what a run adds to the image, once a byte is placed;
* **`image_layout`** — the image of a run that succeeds.

Design notes.  Before the first byte an origin moves on without a gap, so the
runs before and behind it are treated apart.  Addresses are compared as
integers, which is why none may reach `0x80000000`.
-/
import Assembler6502.Proofs.Session.Passes
import Assembler6502.Proofs.Statement.Extent

namespace Assembler6502

/-- Whether a statement places bytes, be it none. -/
def Statement.places : Statement → Bool
  | .instruction _ | .bytes _ | .words _ => true
  | _ => false

/-- A word as two bytes, the low one first. -/
def littleEndian (w : UInt16) : List UInt8 :=
  [UInt8.ofNat (w.toNat % 256), UInt8.ofNat (w.toNat / 256)]

/-- The load address is written as a word. -/
theorem Format.header_c64 (w : UInt16) : Format.c64.header w = littleEndian w := by
  have hlow : w.toUInt8 = UInt8.ofNat (w.toNat % 256) := by
    apply UInt8.toNat_inj.mp
    simp
  have hhigh : (w >>> 8).toUInt8 = UInt8.ofNat (w.toNat / 256) := by
    apply UInt8.toNat_inj.mp
    simp [Nat.shiftRight_eq_div_pow]
  rw [Format.header, hlow, hhigh, littleEndian]

theorem wordBytes_eq (words : List UInt16) : wordBytes words = words.flatMap littleEndian :=
  congrArg (words.flatMap ·) (funext Format.header_c64)

/-! ### Writing bytes alone -/

theorem Writer.write_eq_ok {bytes : List UInt8} {w w' : Writer} {x : Unit}
    (h : Writer.write bytes w = .ok x w') : w'.written = w.written ++ bytes := by
  unfold Writer.write at h
  split at h
  · cases h
    rfl
  · split at h
    · cases h
      rfl
    · cases h

namespace Emitter

/-- An emitter of bytes alone has written `output` and counted it. -/
structure Wrote (e e' : Emitter) (output : List UInt8) : Prop where
  format : e'.format = .raw
  written : e'.writer.written = e.writer.written ++ output
  size : e'.size = e.size + output.length

variable {e e' e'' : Emitter} {output output' : List UInt8}

theorem Wrote.refl (h : e.format = .raw) : e.Wrote e [] :=
  ⟨h, (List.append_nil _).symm, rfl⟩

theorem Wrote.trans (h : e.Wrote e' output) (h' : e'.Wrote e'' output') :
    e.Wrote e'' (output ++ output') where
  format := h'.format
  written := by rw [h'.written, h.written, List.append_assoc]
  size := by rw [h'.size, h.size, List.length_append, Nat.add_assoc]

theorem put_eq_ok {count : Nat} {x : Unit} (h : put output count e = .ok x e') :
    e'.format = e.format ∧ e'.writer.written = e.writer.written ++ output ∧
      e'.size = e.size + count := by
  unfold put at h
  split at h
  · next writer hw =>
    cases h
    exact ⟨rfl, Writer.write_eq_ok hw, rfl⟩
  · cases h

/-- Bytes alone are written as they are. -/
theorem wrote_of_put {x : Unit} (hraw : e.format = .raw)
    (h : put output output.length e = .ok x e') : e.Wrote e' output := by
  obtain ⟨hformat, hwritten, hsize⟩ := put_eq_ok h
  exact ⟨hformat.trans hraw, hwritten, hsize⟩

theorem begin_wrote {start : UInt16} {x : Unit} (hraw : e.format = .raw)
    (h : begin start e = .ok x e') : e.Wrote e' [] := by
  change put (e.format.header start) 0 e = _ at h
  rw [hraw] at h
  show e.Wrote e' (Format.raw.header start)
  exact wrote_of_put hraw h

theorem instruction_wrote {address : Int32} {x : Unit} (hraw : e.format = .raw)
    (h : instruction address output e = .ok x e') : e.Wrote e' output := by
  change put (e.format.instruction address output) output.length e = _ at h
  rw [hraw] at h
  exact wrote_of_put hraw h

theorem data_wrote {address : Int32} {x : Unit} (hraw : e.format = .raw)
    (h : data address output e = .ok x e') : e.Wrote e' output := by
  change put (e.format.data address output) output.length e = _ at h
  rw [hraw] at h
  exact wrote_of_put hraw h

theorem fill_wrote {count : Nat} {x : Unit} (hraw : e.format = .raw)
    (h : fill count e = .ok x e') : e.Wrote e' (List.replicate count 0) := by
  change put (e.format.fill count) count e = _ at h
  rw [hraw] at h
  obtain ⟨hformat, hwritten, hsize⟩ := put_eq_ok h
  exact ⟨hformat.trans hraw, hwritten, by rw [hsize, List.length_replicate]⟩

end Emitter

namespace Assembly

/-! ### Images and the statements in them -/

namespace Visit

/-- The bytes that a statement of the second pass places. -/
def code (v : Visit) : List UInt8 :=
  match v.statement with
  | .instruction i =>
    match i.encode .second v.before.address with
    | .ok bytes => bytes
    | .error _ => []
  | .bytes data => data
  | .words data => data.flatMap littleEndian
  | _ => []

/-- The address of the first byte. -/
def start (v : Visit) : Int :=
  v.before.address.toInt

/-- The address behind the last byte. -/
def stop (v : Visit) : Int :=
  v.start + v.code.length

end Visit

/-- An image from an address on holds the code of statements: each has its bytes at its address, the
statements stand in their order and do not overlap, and all other bytes are zero. -/
structure Holds (start : Int) (vs : List Visit) (image : List UInt8) : Prop where
  code : ∀ v ∈ vs, ∃ before behind, image = before ++ v.code ++ behind ∧
    v.start = start + before.length
  ordered : vs.Pairwise fun v w => v.stop ≤ w.start
  gaps : ∀ (k : Nat) (byte : UInt8), image[k]? = some byte →
    (∀ v ∈ vs, start + k < v.start ∨ v.stop ≤ start + k) → byte = 0

namespace Holds

variable {start : Int} {vs : List Visit} {image : List UInt8}

theorem nil : Holds start [] [] where
  code := fun _ hv => absurd hv List.not_mem_nil
  ordered := List.Pairwise.nil
  gaps := by
    intro k byte hk
    rw [List.getElem?_nil] at hk
    cases hk

/-- No statement starts before the image. -/
theorem start_le (h : Holds start vs image) {v : Visit} (hv : v ∈ vs) : start ≤ v.start := by
  obtain ⟨before, -, -, hstart⟩ := h.code v hv
  omega

/-- Code in front of an image that goes on behind it. -/
theorem code_append {v : Visit} (h : Holds v.stop vs image) :
    Holds v.start (v :: vs) (v.code ++ image) where
  code := by
    intro w hw
    rcases List.mem_cons.mp hw with rfl | hw
    · exact ⟨[], image, rfl, by simp⟩
    · obtain ⟨before, behind, himage, hstart⟩ := h.code w hw
      refine ⟨v.code ++ before, behind, ?_, ?_⟩
      · rw [himage, List.append_assoc, List.append_assoc, List.append_assoc]
      · rw [hstart, List.length_append, Visit.stop]
        omega
  ordered := List.Pairwise.cons (fun _ hw => h.start_le hw) h.ordered
  gaps := by
    intro k byte hk hout
    have hv : v.start + k < v.start ∨ v.stop ≤ v.start + k := hout v List.mem_cons_self
    -- The byte is not one of the code, so it is one of what follows.
    have hle : v.code.length ≤ k := by
      unfold Visit.stop at hv
      omega
    rw [List.getElem?_append_right hle] at hk
    refine h.gaps (k - v.code.length) byte hk fun w hw => ?_
    have hw := hout w (List.mem_cons_of_mem v hw)
    unfold Visit.stop at hw ⊢
    omega

/-- Zeros in front of an image that goes on behind them. -/
theorem gap_append {n : Nat} (h : Holds (start + n) vs image) :
    Holds start vs (List.replicate n 0 ++ image) where
  code := by
    intro w hw
    obtain ⟨before, behind, himage, hstart⟩ := h.code w hw
    refine ⟨List.replicate n 0 ++ before, behind, ?_, ?_⟩
    · rw [himage, List.append_assoc, List.append_assoc, List.append_assoc]
    · rw [hstart, List.length_append, List.length_replicate]
      omega
  ordered := h.ordered
  gaps := by
    intro k byte hk hout
    by_cases hlt : k < n
    · rw [List.getElem?_append_left (by rwa [List.length_replicate])] at hk
      exact (List.mem_replicate.mp (List.mem_of_getElem? hk)).2
    · rw [List.getElem?_append_right (by rw [List.length_replicate]; omega),
        List.length_replicate] at hk
      refine h.gaps (k - n) byte hk fun w hw => ?_
      have hw := hout w hw
      omega

end Holds

/-! ### What a statement adds to the image -/

variable {setting : Setting} {statement : Statement} {s t u : State} {e : Emitter}
  {vs : List Visit}

/-- A statement that neither places bytes nor names an origin leaves the image alone. -/
theorem Effect.still (h : Effect setting statement s u) (hplaces : statement.places = false)
    (horigin : ∀ x, statement ≠ .origin x) :
    u.image = s.image ∧ u.placed = s.placed ∧ u.address = s.address := by
  cases h with
  | instruction => cases hplaces
  | bytes => cases hplaces
  | words => cases hplaces
  | firstOrigin => exact absurd rfl (horigin _)
  | secondOrigin => exact absurd rfl (horigin _)
  | label => rw [State.labelled_eq]; exact ⟨rfl, rfl, rfl⟩
  | openScope => rw [State.labelled_eq]; exact ⟨rfl, rfl, rfl⟩
  | _ => exact ⟨rfl, rfl, rfl⟩

/-- A statement that places bytes writes its code and moves behind it. -/
theorem Effect.writes_code (h : Effect setting statement s u) (hpass : setting.pass = .second)
    (hplaces : statement.places = true) (himage : s.image = some e) (hraw : e.format = .raw)
    (hstart : 0 ≤ Visit.start ⟨s, statement⟩) (hstop : Visit.stop ⟨s, statement⟩ < 0x80000000) :
    ∃ e', u.image = some e' ∧ e.Wrote e' (Visit.code ⟨s, statement⟩) ∧ u.placed = true ∧
      u.address.toInt = Visit.stop ⟨s, statement⟩ := by
  cases h with
  | @instruction i _ bytes _ code output =>
    have hcode : Visit.code ⟨s, .instruction i⟩ = bytes := by
      unfold Visit.code
      dsimp only
      rw [hpass] at code
      rw [code]
    unfold Visit.stop at hstop ⊢
    rw [hcode] at hstop ⊢
    rw [himage] at output
    obtain ⟨e', hput, rfl⟩ := output
    exact ⟨e', rfl, Emitter.instruction_wrote hraw hput, rfl, toInt_add_ofNat hstart hstop⟩
  | bytes output =>
    rw [himage] at output
    obtain ⟨e', hput, rfl⟩ := output
    exact ⟨e', rfl, Emitter.data_wrote hraw hput, rfl, toInt_add_ofNat hstart hstop⟩
  | words output =>
    rw [wordBytes_eq] at output ⊢
    rw [himage] at output
    obtain ⟨e', hput, rfl⟩ := output
    exact ⟨e', rfl, Emitter.data_wrote hraw hput, rfl, toInt_add_ofNat hstart hstop⟩
  | _ => cases hplaces

/-- The bytes between an address and an origin that is not before it. -/
theorem toNatClampNeg_sub {a b : Int32} (ha : 0 ≤ a.toInt) (h : ¬ b < a) :
    a.toInt + (b - a).toNatClampNeg = b.toInt := by
  have hle : a.toInt ≤ b.toInt := by
    rw [Int32.lt_iff_toInt_lt] at h
    omega
  have hlt : b.toInt < 0x80000000 := b.toInt_lt
  have hsub : (b - a).toInt = b.toInt - a.toInt := by
    rw [Int32.toInt_sub]
    exact Int.bmod_eq_of_le (by omega) (by omega)
  rw [← Int32.toNat_toInt, hsub]
  omega

/-- Once a byte is placed, any other statement writes the zeros up to where it moves. -/
theorem Effect.writes_gap (h : Effect setting statement s u) (hpass : setting.pass = .second)
    (hplaces : statement.places = false) (hplaced : s.placed = true) (himage : s.image = some e)
    (hraw : e.format = .raw) (hstart : 0 ≤ s.address.toInt) :
    ∃ e' n, u.image = some e' ∧ e.Wrote e' (List.replicate n 0) ∧ u.placed = true ∧
      u.address.toInt = s.address.toInt + n := by
  by_cases horigin : ∃ x, statement = .origin x
  · obtain ⟨x, rfl⟩ := horigin
    cases h with
    | firstOrigin pass =>
      rw [hpass] at pass
      cases pass
    | secondOrigin _ forward output =>
      rw [if_pos hplaced, himage] at output
      obtain ⟨e', hput, rfl⟩ := output
      exact ⟨e', _, rfl, Emitter.fill_wrote hraw hput, hplaced,
        (toNatClampNeg_sub hstart (forward hplaced)).symm⟩
  · obtain ⟨himage', hplaced', haddress⟩ := h.still hplaces fun x hx => horigin ⟨x, hx⟩
    refine ⟨e, 0, himage'.trans himage, .refl hraw, hplaced'.trans hplaced, ?_⟩
    rw [haddress]
    exact (Int.add_zero _).symm

/-- Before a byte is placed, no other statement writes. -/
theorem Effect.writes_nothing (h : Effect setting statement s u) (hpass : setting.pass = .second)
    (hplaces : statement.places = false) (hplaced : s.placed = false) :
    u.image = s.image ∧ u.placed = false := by
  by_cases horigin : ∃ x, statement = .origin x
  · obtain ⟨x, rfl⟩ := horigin
    cases h with
    | firstOrigin pass =>
      rw [hpass] at pass
      cases pass
    | secondOrigin _ _ output =>
      rw [hplaced] at output
      exact ⟨output, hplaced⟩
  · obtain ⟨himage, hplaced', -⟩ := h.still hplaces fun x hx => horigin ⟨x, hx⟩
    exact ⟨himage, hplaced'.trans hplaced⟩

/-! ### What a run adds to the image -/

/-- All statements lie at addresses that are not negative and do not reach `0x80000000`. -/
def InRange (vs : List Visit) : Prop :=
  ∀ v ∈ vs, 0 ≤ v.start ∧ v.stop < 0x80000000

/-- The statements that place bytes. -/
def placing (vs : List Visit) : List Visit :=
  vs.filter fun v => v.statement.places

theorem placing_cons_of_places {v : Visit} (h : v.statement.places = true) :
    placing (v :: vs) = v :: placing vs :=
  List.filter_cons_of_pos h

theorem placing_cons_of_not_places {v : Visit} (h : v.statement.places = false) :
    placing (v :: vs) = placing vs :=
  List.filter_cons_of_neg (by rw [h]; exact Bool.false_ne_true)

/-- From a state to another, an image of statements is added that goes from one address to the
other. -/
def Adds (e : Emitter) (s : State) (vs : List Visit) (t : State) : Prop :=
  ∃ e' image, t.image = some e' ∧ e.Wrote e' image ∧ Holds s.address.toInt (placing vs) image ∧
    t.address.toInt = s.address.toInt + image.length

/-- A statement that places bytes puts its code in front of what the rest adds. -/
theorem Effect.adds_code {r : Reading} (effect : Effect setting statement (s.resume r) u)
    (hpass : setting.pass = .second) (hplaces : statement.places = true)
    (himage : s.image = some e) (hraw : e.format = .raw)
    (hstart : 0 ≤ Visit.start ⟨s, statement⟩) (hstop : Visit.stop ⟨s, statement⟩ < 0x80000000)
    (hrest : ∀ e₁, u.placed = true → u.image = some e₁ → e₁.format = .raw → Adds e₁ u vs t) :
    Adds e s (⟨s, statement⟩ :: vs) t := by
  obtain ⟨e₁, himage₁, hwrote, hplaced, haddress⟩ :=
    effect.writes_code hpass hplaces himage hraw hstart hstop
  -- Reading the statement has not moved the address, so its visit has the same code.
  change u.address.toInt = Visit.stop ⟨s, statement⟩ at haddress
  change e.Wrote e₁ (Visit.code ⟨s, statement⟩) at hwrote
  obtain ⟨e', image, himage', hwrote', hholds, hend⟩ := hrest e₁ hplaced himage₁ hwrote.format
  rw [haddress] at hholds hend
  unfold Adds
  rw [placing_cons_of_places hplaces]
  refine ⟨e', _, himage', hwrote.trans hwrote', hholds.code_append, ?_⟩
  rw [hend, List.length_append, Int.natCast_add, ← Int.add_assoc]
  rfl

/-- Once a byte is placed, a run adds an image of its statements. -/
theorem Clean.adds (h : Clean setting s vs t) (hpass : setting.pass = .second)
    (hplaced : s.placed = true) (himage : s.image = some e) (hraw : e.format = .raw)
    (hrange : InRange vs) : Adds e s vs t := by
  -- Induction on the run: what the rest adds stands behind the bytes of the statement.
  induction h generalizing e with
  | finish => exact ⟨e, [], himage, .refl hraw, .nil, (Int.add_zero _).symm⟩
  | close _ _ _ ih => exact ih hplaced himage hraw hrange
  | @carry s t u statement r vs _ effect _ ih =>
    obtain ⟨hstart, hstop⟩ := hrange ⟨s, statement⟩ List.mem_cons_self
    have hrest : InRange vs := fun v hv => hrange v (List.mem_cons_of_mem _ hv)
    cases hplaces : statement.places with
    | true =>
      exact effect.adds_code hpass hplaces himage hraw hstart hstop
        fun e₁ hplaced₁ himage₁ hraw₁ => ih hplaced₁ himage₁ hraw₁ hrest
    | false =>
      obtain ⟨e₁, n, himage₁, hwrote, hplaced₁, haddress⟩ :=
        effect.writes_gap hpass hplaces hplaced himage hraw hstart
      obtain ⟨e', image, himage', hwrote', hholds, hend⟩ :=
        ih hplaced₁ himage₁ hwrote.format hrest
      rw [haddress] at hholds hend
      unfold Adds
      rw [placing_cons_of_not_places hplaces]
      refine ⟨e', _, himage', hwrote.trans hwrote', hholds.gap_append, ?_⟩
      rw [hend, List.length_append, List.length_replicate, Int.natCast_add, ← Int.add_assoc]
      rfl

/-- An image is laid out for statements: it is empty if they place nothing, and otherwise holds
their code from the first of them on and ends at the last address. -/
def LaidOut (vs : List Visit) (last : Int32) (image : List UInt8) : Prop :=
  match placing vs with
  | [] => image = []
  | first :: rest =>
    Holds first.start (first :: rest) image ∧ last.toInt = first.start + image.length

/-- A run that has placed no byte yet adds an image that is laid out for its statements. -/
theorem Clean.laidOut (h : Clean setting s vs t) (hpass : setting.pass = .second)
    (hplaced : s.placed = false) (himage : s.image = some e) (hraw : e.format = .raw)
    (hrange : InRange vs) :
    ∃ e' image, t.image = some e' ∧ e.Wrote e' image ∧ LaidOut vs t.address image := by
  induction h with
  | finish => exact ⟨e, [], himage, .refl hraw, rfl⟩
  | close _ _ _ ih => exact ih hplaced himage hrange
  | @carry s t u statement r vs _ effect rest ih =>
    obtain ⟨hstart, hstop⟩ := hrange ⟨s, statement⟩ List.mem_cons_self
    have hrest : InRange vs := fun v hv => hrange v (List.mem_cons_of_mem _ hv)
    unfold LaidOut
    cases hplaces : statement.places with
    | true =>
      -- The image begins here, and the rest of the run goes on with a byte placed.
      obtain ⟨e', image, himage', hwrote, hholds, hend⟩ :=
        effect.adds_code hpass hplaces himage hraw hstart hstop
          fun e₁ hplaced₁ himage₁ hraw₁ => rest.adds hpass hplaced₁ himage₁ hraw₁ hrest
      rw [placing_cons_of_places hplaces] at hholds ⊢
      exact ⟨e', image, himage', hwrote, hholds, hend⟩
    | false =>
      obtain ⟨himage₁, hplaced₁⟩ := effect.writes_nothing hpass hplaces hplaced
      rw [placing_cons_of_not_places hplaces]
      exact ih hplaced₁ (himage₁.trans himage) hrest

end Assembly

namespace Session

open Assembler6502.Assembly

variable {disk : Disk} {input : Input} {job done : Job} {report : Report}

/-- A run that succeeds and writes bytes alone adds an image of the size it reports.  The image
begins with the first statement that places bytes; each of these has its code at its address, they
do not overlap, and all other bytes are zero. -/
theorem image_layout (h : assemble disk input job = .ok report done)
    (hraw : job.session.options.format = .raw) (hrange : InRange (secondVisits disk input job)) :
    ∃ image, done.writer.written = job.writer.written ++ image ∧ image.length = report.size ∧
      LaidOut (secondVisits disk input job) report.stop image := by
  obtain ⟨p⟩ := passes_of_assemble h
  have hbegun := Emitter.begin_wrote hraw p.begun
  obtain ⟨e', image, himage, hwrote, hlaid⟩ :=
    p.second.laidOut rfl rfl rfl hbegun.format hrange
  have hall := hbegun.trans hwrote
  have hwriter : done.writer = e'.writer := by
    rw [congrArg Job.writer p.done_eq, himage]
    rfl
  have hsize : report.size = e'.size := by
    rw [congrArg Report.size p.report_eq, himage]
    rfl
  refine ⟨image, ?_, ?_, ?_⟩
  · rw [hwriter]
    exact hall.written
  · rw [hsize, hall.size]
    exact (Nat.zero_add _).symm
  · rw [congrArg Report.stop p.report_eq]
    exact hlaid

/-- Origins before the first byte, between bytes and behind the last one. -/
def gappedInput : Input :=
  .text "main" (Byte.ofChars
    " .org $1100\n lda #1\n .org $1105\n .word $1234\n .org $1109\n".toList)

theorem image_layout_gapped :
    ∃ report done, assemble (.empty []) gappedInput .plain = .ok report done ∧
      done.writer.written = [0xa9, 0x01, 0, 0, 0, 0x34, 0x12, 0, 0] ∧
      (placing (secondVisits (.empty []) gappedInput .plain)).map (fun v => (v.start, v.code)) =
        [(0x1100, [0xa9, 0x01]), (0x1105, [0x34, 0x12])] ∧
      InRange (secondVisits (.empty []) gappedInput .plain) ∧
      ∃ image, done.writer.written = Job.plain.writer.written ++ image ∧
        image.length = report.size ∧
        LaidOut (secondVisits (.empty []) gappedInput .plain) report.stop image := by
  obtain ⟨report, done, hrun, hresult⟩ :=
    exists_of_trace (n := 10)
      (f := fun (_, ws, _, done) => (done.writer.written,
        (placing ws).map (fun v => (v.start, v.code)),
        ws.all fun v => 0 ≤ v.start ∧ v.stop < 0x80000000))
      (show (trace 10 (.empty []) gappedInput .plain).map _ =
          some (([0xa9, 0x01, 0, 0, 0, 0x34, 0x12, 0, 0] : List UInt8),
            ([(0x1100, [0xa9, 0x01]), (0x1105, [0x34, 0x12])] : List (Int × List UInt8)),
            true) by decide +kernel)
  simp only [Prod.mk.injEq] at hresult
  obtain ⟨hwritten, hplacing, hall⟩ := hresult
  have hrange : InRange (secondVisits (.empty []) gappedInput .plain) := by
    intro v hv
    exact of_decide_eq_true (List.all_eq_true.mp hall v hv)
  exact ⟨report, done, hrun, hwritten, hplacing, hrange, image_layout hrun rfl hrange⟩

end Session

end Assembler6502
