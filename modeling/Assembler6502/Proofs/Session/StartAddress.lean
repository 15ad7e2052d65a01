/-
Where an image starts.

The start address of an image is found by the first pass, and it is put in front
of the image before the second pass has begun.  An origin that the second pass
reads otherwise moves the bytes, but not the start address.

* **`Emitter.Grew`** — output in any format stands for a number of bytes;
* **`Clean.before_placing`** — what holds until the first byte is placed;
* **`Clean.grew`** — once a byte is placed, the address moves on with the size
  of the image;
* **`start_address`** — the start address is that of the first pass at the first
  byte, and the byte lies there if and only if the passes do not differ by then.

Design notes.  Before the first byte every address of the second pass is a word,
because origins are words there.  So the start address loses nothing in being cut
to a word if the first pass has the same address.
-/
import Assembler6502.Proofs.Session.ImageLayout
import Assembler6502.Proofs.Session.Phase
import Assembler6502.Proofs.Statement.Exactness

namespace Assembler6502

/-! ### Sizes in any format -/

namespace Emitter

/-- An emitter has written something for `count` bytes more. -/
structure Grew (e e' : Emitter) (count : Nat) : Prop where
  size : e'.size = e.size + count
  written : ∃ output, e'.writer.written = e.writer.written ++ output

variable {e e' e'' : Emitter} {count count' : Nat} {x : Unit}

theorem Grew.refl (e : Emitter) : e.Grew e 0 :=
  ⟨rfl, [], (List.append_nil _).symm⟩

theorem Grew.trans (h : e.Grew e' count) (h' : e'.Grew e'' count') :
    e.Grew e'' (count + count') where
  size := by rw [h'.size, h.size, Nat.add_assoc]
  written := by
    obtain ⟨output, hwritten⟩ := h.written
    obtain ⟨output', hwritten'⟩ := h'.written
    exact ⟨output ++ output', by rw [hwritten', hwritten, List.append_assoc]⟩

theorem grew_of_put {output : List UInt8} (h : put output count e = .ok x e') :
    e.Grew e' count := by
  obtain ⟨-, hwritten, hsize⟩ := put_eq_ok h
  exact ⟨hsize, output, hwritten⟩

/-- The load address stands in front of the image, the low byte first. -/
theorem begin_c64 {start : UInt16} (hformat : e.format = .c64) (h : begin start e = .ok x e') :
    e'.writer.written = e.writer.written ++ littleEndian start := by
  change put (e.format.header start) 0 e = _ at h
  rw [hformat, Format.header_c64] at h
  exact (put_eq_ok h).2.1

end Emitter

namespace Assembly

variable {setting : Setting} {statement : Statement} {s t u : State} {e : Emitter}
  {vs : List Visit}

/-- What a statement of the second pass adds to the image, counted in bytes.  Once a byte is placed,
the address moves on by as many. -/
theorem Effect.grew (h : Effect setting statement s u) (hpass : setting.pass = .second)
    (himage : s.image = some e) :
    ∃ e' n, u.image = some e' ∧ e.Grew e' n ∧
      ((s.placed = true ∨ statement.places = true) → u.placed = true ∧
        (0 ≤ s.address.toInt → s.address.toInt + n < 0x80000000 →
          u.address.toInt = s.address.toInt + n)) ∧
      (s.placed = false → statement.places = false → n = 0 ∧ u.placed = false) := by
  cases hplaces : statement.places with
  | true =>
    cases h with
    | instruction code output =>
      rw [himage] at output
      obtain ⟨e', hput, rfl⟩ := output
      exact ⟨e', _, rfl, Emitter.grew_of_put hput, fun _ => ⟨rfl, toInt_add_ofNat⟩, nofun⟩
    | bytes output =>
      rw [himage] at output
      obtain ⟨e', hput, rfl⟩ := output
      exact ⟨e', _, rfl, Emitter.grew_of_put hput, fun _ => ⟨rfl, toInt_add_ofNat⟩, nofun⟩
    | words output =>
      rw [himage] at output
      obtain ⟨e', hput, rfl⟩ := output
      exact ⟨e', _, rfl, Emitter.grew_of_put hput, fun _ => ⟨rfl, toInt_add_ofNat⟩, nofun⟩
    | _ => cases hplaces
  | false =>
    cases hplaced : s.placed with
    | false =>
      obtain ⟨himage', hplaced'⟩ := h.writes_nothing hpass hplaces hplaced
      exact ⟨e, 0, himage'.trans himage, .refl e, by simp, fun _ _ => ⟨rfl, hplaced'⟩⟩
    | true =>
      by_cases horigin : ∃ x, statement = .origin x
      · obtain ⟨x, rfl⟩ := horigin
        cases h with
        | firstOrigin pass =>
          rw [hpass] at pass
          cases pass
        | secondOrigin _ forward output =>
          rw [if_pos hplaced, himage] at output
          obtain ⟨e', hput, rfl⟩ := output
          refine ⟨e', _, rfl, Emitter.grew_of_put hput, fun _ => ⟨hplaced, ?_⟩, nofun⟩
          exact fun hstart _ => (toNatClampNeg_sub hstart (forward hplaced)).symm
      · obtain ⟨himage', hplaced', haddress⟩ := h.still hplaces fun x hx => horigin ⟨x, hx⟩
        refine ⟨e, 0, himage'.trans himage, .refl e, fun _ => ⟨hplaced'.trans hplaced, ?_⟩, nofun⟩
        intro _ _
        rw [haddress]
        exact (Int.add_zero _).symm

/-- What a run of the second pass adds to the image.  Once a byte is placed, the address moves on
with the size of the image; if none is placed, the image stays as it is. -/
theorem Clean.grew (h : Clean setting s vs t) (hpass : setting.pass = .second)
    (himage : s.image = some e) :
    ∃ e' n, t.image = some e' ∧ e.Grew e' n ∧
      (s.placed = true → 0 ≤ s.address.toInt → s.address.toInt + n < 0x80000000 →
        t.address.toInt = s.address.toInt + n) ∧
      (s.placed = false → (∀ v ∈ vs, v.statement.places = false) → n = 0) := by
  induction h generalizing e with
  | finish => exact ⟨e, 0, himage, .refl e, fun _ _ _ => (Int.add_zero _).symm, fun _ _ => rfl⟩
  | close _ _ _ ih => exact ih himage
  | @carry s t u statement r vs _ effect _ ih =>
    obtain ⟨e₁, n, himage₁, hgrew, hmoves, hstays⟩ := effect.grew hpass himage
    obtain ⟨e₂, m, himage₂, hgrew', hmoves', hstays'⟩ := ih himage₁
    refine ⟨e₂, n + m, himage₂, hgrew.trans hgrew', ?_, ?_⟩
    · intro hplaced hstart hroom
      obtain ⟨hplaced₁, haddress⟩ := hmoves (.inl hplaced)
      have hfirst : u.address.toInt = s.address.toInt + n := haddress hstart (by
        show s.address.toInt + n < 0x80000000
        omega)
      have hrest := hmoves' hplaced₁ (by omega) (by omega)
      omega
    · intro hplaced hnone
      obtain ⟨rfl, hplaced₁⟩ := hstays hplaced (hnone _ List.mem_cons_self)
      rw [hstays' hplaced₁ fun v hv => hnone v (List.mem_cons_of_mem _ hv)]

/-! ### Before the first byte -/

/-- A property of states that statements without bytes keep holds up to the first statement that
places bytes, and the run goes on from there. -/
theorem Clean.before_placing {P : State → Prop} (h : Clean setting s vs t) (hs : P s)
    (hclose : ∀ {s : State} {r : Reading} {files : OpenFiles}, P s →
      P { s.resume r with files })
    (hcarry : ∀ {s u : State} {statement : Statement} {r : Reading}, P s →
      Statement.parse (s.context setting) s.reading = .ok statement r →
      Effect setting statement (s.resume r) u → statement.places = false → P u)
    {k : Nat} {v : Visit} (hv : vs[k]? = some v)
    (hbefore : ∀ u ∈ vs.take k, u.statement.places = false) :
    P v.before ∧ ∃ r u rest, Effect setting v.statement (v.before.resume r) u ∧
      Clean setting u rest t := by
  induction h generalizing k with
  | finish => cases hv
  | close _ _ _ ih => exact ih (hclose hs) hv hbefore
  | carry parsed effect rest ih =>
    cases k with
    | zero =>
      cases hv
      exact ⟨hs, _, _, _, effect, rest⟩
    | succ k =>
      rw [List.take_succ_cons] at hbefore
      refine ih (hcarry hs parsed effect (hbefore _ List.mem_cons_self)) hv fun w hw => ?_
      exact hbefore w (List.mem_cons_of_mem _ hw)

/-- Before the first byte, the start address of the first pass follows the origins. -/
theorem Effect.start_follows (h : Effect setting statement s u) (hpass : setting.pass = .first)
    (hplaces : statement.places = false) (hplaced : s.placed = false)
    (hstart : s.start = s.address) : u.placed = false ∧ u.start = u.address := by
  cases h with
  | firstOrigin =>
    refine ⟨hplaced, ?_⟩
    show (if s.placed = true then s.start else _) = _
    rw [hplaced]
    rfl
  | secondOrigin pass =>
    rw [hpass] at pass
    cases pass
  | instruction => cases hplaces
  | bytes => cases hplaces
  | words => cases hplaces
  | label => rw [State.labelled_eq]; exact ⟨hplaced, hstart⟩
  | openScope => rw [State.labelled_eq]; exact ⟨hplaced, hstart⟩
  | _ => exact ⟨hplaced, hstart⟩

/-- From the first byte on, the start address stays. -/
theorem Effect.start_stays (h : Effect setting statement s u)
    (hplaced : s.placed = true ∨ statement.places = true) :
    u.placed = true ∧ u.start = s.start := by
  cases h with
  | instruction => exact ⟨rfl, rfl⟩
  | bytes => exact ⟨rfl, rfl⟩
  | words => exact ⟨rfl, rfl⟩
  | firstOrigin =>
    have hplaced := hplaced.resolve_right Bool.false_ne_true
    exact ⟨hplaced, if_pos hplaced⟩
  | label =>
    rw [State.labelled_eq]
    exact ⟨hplaced.resolve_right Bool.false_ne_true, rfl⟩
  | openScope =>
    rw [State.labelled_eq]
    exact ⟨hplaced.resolve_right Bool.false_ne_true, rfl⟩
  | _ => exact ⟨hplaced.resolve_right Bool.false_ne_true, rfl⟩

theorem Clean.start_stays (h : Clean setting s vs t) (hplaced : s.placed = true) :
    t.start = s.start := by
  induction h with
  | finish => rfl
  | close _ _ _ ih => exact ih hplaced
  | carry _ effect _ ih =>
    obtain ⟨hplaced', hstart⟩ := effect.start_stays (.inl hplaced)
    rw [ih hplaced', hstart]
    rfl

/-- The first pass ends with the address that it had at the first byte. -/
theorem Clean.start_eq (h : Clean setting s vs t) (hpass : setting.pass = .first)
    (hplaced : s.placed = false) (hstart : s.start = s.address) {k : Nat} {v : Visit}
    (hv : vs[k]? = some v) (hplaces : v.statement.places = true)
    (hbefore : ∀ u ∈ vs.take k, u.statement.places = false) : t.start = v.before.address := by
  obtain ⟨⟨-, hfound⟩, r, u, rest, effect, hrest⟩ :=
    h.before_placing (P := fun s => s.placed = false ∧ s.start = s.address) ⟨hplaced, hstart⟩
      (fun hs => hs) (fun hs _ effect hnone => effect.start_follows hpass hnone hs.1 hs.2)
      hv hbefore
  obtain ⟨hplaced', hstart'⟩ := effect.start_stays (.inr hplaces)
  rw [hrest.start_stays hplaced', hstart']
  exact hfound

/-- A state of the second pass in which no byte is placed and the address is a word. -/
structure State.Waiting (e : Emitter) (s : State) : Prop where
  placed : s.placed = false
  image : s.image = some e
  nonneg : 0 ≤ s.address.toInt
  word : s.address.toInt ≤ 0xffff

/-- Origins of the second pass are words. -/
theorem Effect.waiting {r : Reading} (hs : s.Waiting e) (hpass : setting.pass = .second)
    (hparsed : Statement.parse (s.context setting) s.reading = .ok statement r)
    (h : Effect setting statement (s.resume r) u) (hplaces : statement.places = false) :
    u.Waiting e := by
  obtain ⟨himage, hplaced⟩ := h.writes_nothing hpass hplaces hs.placed
  by_cases horigin : ∃ x, statement = .origin x
  · obtain ⟨x, rfl⟩ := horigin
    obtain ⟨hnonneg, hword⟩ := Statement.parse_origin_word hpass hparsed
    have haddress : u.address = x := h.address
    exact ⟨hplaced, himage.trans hs.image, haddress ▸ hnonneg, haddress ▸ hword⟩
  · obtain ⟨-, -, haddress⟩ := h.still hplaces fun x hx => horigin ⟨x, hx⟩
    have haddress : u.address = s.address := haddress
    exact ⟨hplaced, himage.trans hs.image, haddress ▸ hs.nonneg, haddress ▸ hs.word⟩

/-- The second pass places its first byte at a word, and ends behind its last one. -/
theorem Clean.first_byte (h : Clean setting s vs t) (hpass : setting.pass = .second)
    (hs : s.Waiting e) {k : Nat} {v : Visit} (hv : vs[k]? = some v)
    (hplaces : v.statement.places = true)
    (hbefore : ∀ u ∈ vs.take k, u.statement.places = false) :
    ∃ e' n, t.image = some e' ∧ e.Grew e' n ∧ 0 ≤ v.start ∧ v.start ≤ 0xffff ∧
      (v.start + n < 0x80000000 → t.address.toInt = v.start + n) := by
  obtain ⟨hfound, r, u, rest, effect, hrest⟩ := h.before_placing (P := State.Waiting e) hs
    (fun hs => ⟨hs.placed, hs.image, hs.nonneg, hs.word⟩)
    (fun hs parsed effect hnone => effect.waiting hs hpass parsed hnone) hv hbefore
  obtain ⟨e₁, n, himage₁, hgrew, hmoves, -⟩ := effect.grew hpass hfound.image
  obtain ⟨e₂, m, himage₂, hgrew', hmoves', -⟩ := hrest.grew hpass himage₁
  refine ⟨e₂, n + m, himage₂, hgrew.trans hgrew', hfound.nonneg, hfound.word, ?_⟩
  intro hroom
  have hnonneg : 0 ≤ v.start := hfound.nonneg
  obtain ⟨hplaced₁, haddress⟩ := hmoves (.inr hplaces)
  have hfirst : u.address.toInt = v.start + n := haddress hnonneg (by
    show v.start + n < 0x80000000
    omega)
  have hlast := hmoves' hplaced₁ (by omega) (by omega)
  omega

/-- Of statements some of which place bytes, there is a first one. -/
theorem exists_first_placing (h : ∃ v ∈ vs, v.statement.places = true) :
    ∃ k v, vs[k]? = some v ∧ v.statement.places = true ∧
      ∀ u ∈ vs.take k, u.statement.places = false := by
  cases hfind : vs.find? fun v => v.statement.places with
  | none =>
    obtain ⟨v, hv, hplaces⟩ := h
    exact absurd hplaces (List.find?_eq_none.mp hfind v hv)
  | some v =>
    obtain ⟨hplaces, before, behind, rfl, hbefore⟩ := List.find?_eq_some_iff_append.mp hfind
    refine ⟨before.length, v, by simp, hplaces, ?_⟩
    intro u hu
    rw [List.take_left] at hu
    simpa using hbefore u hu

end Assembly

open Assembler6502.Assembly

/-- Statements that are alike both place bytes, or none of them does. -/
theorem Statement.Alike.places {a b : Statement} (h : a.Alike b) : a.places = b.places := by
  cases h.kinds <;> rfl

theorem places_of_inStep {vs ws : List Visit} (h : List.Forall₂ Visit.InStep vs ws) :
    vs.map (fun v => v.statement.places) = ws.map fun w => w.statement.places := by
  induction h with
  | nil => rfl
  | cons hstep _ ih => rw [List.map_cons, List.map_cons, hstep.statement.places, ih]

/-- An address that is a word is the sum of the low words of an address and a distance. -/
theorem toInt_eq_of_add {a b d : Int32} (h : b = a + d) (hnonneg : 0 ≤ b.toInt)
    (hword : b.toInt ≤ 0xffff) :
    b.toInt = (a.toUInt32.toUInt16 + d.toUInt32.toUInt16).toNat := by
  have hsum : a.toUInt32.toUInt16 + d.toUInt32.toUInt16 = b.toUInt32.toUInt16 := by
    rw [h, Int32.toUInt32_add, UInt32.toUInt16_add]
  have hb := Instruction.toNat_toUInt32 hnonneg
  rw [hsum, UInt32.toNat_toUInt16]
  omega

namespace Session

variable {disk : Disk} {input : Input} {job done : Job} {report : Report}

/-- The second pass begins with no byte placed and at a word. -/
theorem Passes.waiting (p : Passes disk input job report done) :
    ((job.session.between p.middle).initial p.source (some p.emitter)).Waiting p.emitter := by
  have hlt := job.session.options.origin.toNat_lt
  have haddress : ((job.session.between p.middle).initial p.source (some p.emitter)).address.toInt =
      job.session.options.origin.toNat := toInt_word job.session.options.origin
  exact ⟨rfl, rfl, by omega, by omega⟩

/-- What is reported of the image is what the second pass added to it. -/
theorem Passes.size_eq (p : Passes disk input job report done) {e : Emitter} {n : Nat}
    (himage : p.last.image = some e) (hgrew : p.emitter.Grew e n) : report.size = n := by
  have hempty : p.emitter.size = 0 := (Emitter.grew_of_put p.begun).size
  have hsize : report.size = (p.last.image.getD p.emitter).size :=
    congrArg Report.size p.report_eq
  rw [hsize, himage]
  show e.size = n
  rw [hgrew.size, hempty, Nat.zero_add]

/-- If the image is not empty, a statement of the second pass places bytes. -/
theorem Passes.exists_placing (p : Passes disk input job report done) (hsize : 0 < report.size) :
    ∃ w ∈ secondVisits disk input job, w.statement.places = true := by
  by_contra hnone
  obtain ⟨e, n, himage, hgrew, -, hstays⟩ := p.second.grew rfl rfl
  have hzero : n = 0 := by
    refine hstays rfl fun w hw => ?_
    exact Bool.eq_false_iff.mpr fun hplaces => hnone ⟨w, hw, hplaces⟩
  rw [p.size_eq himage hgrew, hzero] at hsize
  exact Nat.lt_irrefl 0 hsize

/-- The first byte is placed by the same statement in both passes. -/
theorem Passes.exists_first_byte (p : Passes disk input job report done)
    (hsize : 0 < report.size) :
    ∃ k v w, (firstVisits disk input job.session)[k]? = some v ∧
      (secondVisits disk input job)[k]? = some w ∧ v.InStep w ∧
      v.statement.places = true ∧ w.statement.places = true ∧
      (∀ u ∈ (firstVisits disk input job.session).take k, u.statement.places = false) ∧
      ∀ u ∈ (secondVisits disk input job).take k, u.statement.places = false := by
  have hmap := places_of_inStep p.together.inStep
  obtain ⟨k, v, hv, hplaces, hbefore⟩ :
      ∃ k v, (firstVisits disk input job.session)[k]? = some v ∧ v.statement.places = true ∧
        ∀ u ∈ (firstVisits disk input job.session).take k, u.statement.places = false := by
    apply exists_first_placing
    obtain ⟨w, hw, hplaces⟩ := p.exists_placing hsize
    have hmem : true ∈ (firstVisits disk input job.session).map fun v => v.statement.places := by
      rw [hmap]
      exact List.mem_map.mpr ⟨w, hw, hplaces⟩
    exact List.mem_map.mp hmem
  obtain ⟨w, hw, hstep⟩ := exists_inStep p.together.inStep hv
  refine ⟨k, v, w, hv, hw, hstep, hplaces, hstep.statement.places ▸ hplaces, hbefore, ?_⟩
  intro u hu
  have hmem : u.statement.places ∈
      ((firstVisits disk input job.session).take k).map fun v => v.statement.places := by
    rw [List.map_take, hmap, ← List.map_take]
    exact List.mem_map.mpr ⟨u, hu, rfl⟩
  obtain ⟨u', hu', heq⟩ := List.mem_map.mp hmem
  rw [← heq]
  exact hbefore u' hu'

/-- A run that succeeds and places bytes reports the address that the first pass had at the first
of them, cut to a word.  The second pass places that byte ahead by the drift of the statements
before, so the byte lies at the start address if and only if the drift has no low word.  The address
at the end is that of the first byte and the size.  In the format with a load address, that is the
start address. -/
theorem start_address (h : assemble disk input job = .ok report done) (hsize : 0 < report.size) :
    ∃ k v w d, (firstVisits disk input job.session)[k]? = some v ∧
      (secondVisits disk input job)[k]? = some w ∧ v.InStep w ∧ w.statement.places = true ∧
      (∀ u ∈ (secondVisits disk input job).take k, u.statement.places = false) ∧
      d = drift
        (((firstVisits disk input job.session).zip (secondVisits disk input job)).take k) ∧
      report.start = v.before.address.toUInt32.toUInt16 ∧
      w.start = ((report.start + d.toUInt32.toUInt16).toNat : Int) ∧
      ((report.start.toNat : Int) = w.start ↔ d.toUInt32.toUInt16 = 0) ∧
      (report.size < 0x80000000 - 0x10000 → report.stop.toInt = w.start + report.size) ∧
      (job.session.options.format = .c64 → ∃ image,
        done.writer.written = job.writer.written ++ littleEndian report.start ++ image) := by
  obtain ⟨p⟩ := passes_of_assemble h
  obtain ⟨k, v, w, hv, hw, hstep, hplaces, hplaces', hbefore, hbefore'⟩ := p.exists_first_byte hsize
  obtain ⟨e, n, himage, hgrew, hnonneg, hword, hend⟩ :=
    p.second.first_byte rfl p.waiting hw hplaces' hbefore'
  have hreport : report.start = v.before.address.toUInt32.toUInt16 := by
    rw [congrArg Report.start p.report_eq, p.first.start_eq rfl rfl rfl hv hplaces hbefore]
  have haddress : w.before.address = v.before.address + drift
      (((firstVisits disk input job.session).zip (secondVisits disk input job)).take k) :=
    p.together.address (Int32.add_zero _).symm hv hw
  have hstart := toInt_eq_of_add haddress hnonneg hword
  rw [← hreport] at hstart
  refine ⟨k, v, w, _, hv, hw, hstep, hplaces', hbefore', rfl, hreport, hstart, ?_, ?_, ?_⟩
  · rw [Visit.start, hstart, Int.natCast_inj, UInt16.toNat_inj]
    exact UInt16.left_eq_add
  · intro hroom
    rw [congrArg Report.stop p.report_eq]
    rw [p.size_eq himage hgrew] at hroom ⊢
    exact hend (by omega)
  · intro hformat
    have hbegun := Emitter.begin_c64 hformat p.begun
    obtain ⟨image, hwritten⟩ := hgrew.written
    refine ⟨image, ?_⟩
    rw [congrArg Job.writer p.done_eq, himage]
    show e.writer.written = _
    rw [hwritten, hbegun, congrArg Report.start p.report_eq]
    rfl

/-- An origin that names a label ahead: `$0ffc` with the placeholder of the first pass, and `$2ffc`
with the address of the label. -/
def movedInput : Input :=
  .text "main" (Byte.ofChars " *=e-4\n nop\n *=$3000\ne: nop\n".toList)

/-- A run with a load address in front of its image. -/
def loadable : Job := ⟨.start { format := .c64 }, .ofCapacity none⟩

/-- The image has the start address `$0ffc` and is five bytes long, but it ends behind `$3000`: its
first byte lies at `$2ffc`. -/
theorem start_address_moved :
    ∃ report done k w, assemble (.empty []) movedInput loadable = .ok report done ∧
      report = ⟨0x0ffc, 0x3001, 5⟩ ∧ 0 < report.size ∧
      done.writer.written = [0xfc, 0x0f, 0xea, 0, 0, 0, 0xea] ∧
      (secondVisits (.empty []) movedInput loadable)[k]? = some w ∧
      w.statement.places = true ∧
      (∀ u ∈ (secondVisits (.empty []) movedInput loadable).take k, u.statement.places = false) ∧
      w.start = 0x2ffc := by
  obtain ⟨report, done, hrun, hresult⟩ :=
    exists_of_trace (n := 9) (f := fun (_, _, report, done) => (report, done.writer.written))
      (show (trace 9 (.empty []) movedInput loadable).map _ =
          some ((⟨0x0ffc, 0x3001, 5⟩ : Report),
            ([0xfc, 0x0f, 0xea, 0, 0, 0, 0xea] : List UInt8)) by
        decide +kernel)
  obtain ⟨hreport, hwritten⟩ := Prod.mk.inj hresult
  have hsize : 0 < report.size := by
    rw [hreport]
    decide
  obtain ⟨k, v, w, d, -, hw, -, hplaces, hbefore, -, -, -, -, hstop, -⟩ := start_address hrun hsize
  refine ⟨report, done, k, w, hrun, hreport, hsize, hwritten, hw, hplaces, hbefore, ?_⟩
  rw [hreport] at hstop
  have hstop : (0x3001 : Int32).toInt = w.start + (5 : Nat) := hstop (by decide)
  have hlast : (0x3001 : Int32).toInt = 0x3001 := rfl
  omega

end Session

end Assembler6502
