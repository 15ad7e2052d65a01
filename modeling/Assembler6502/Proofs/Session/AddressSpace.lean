/-
Where the bytes of a run lie.

The first pass refuses an origin in the zero page.  The second pass reads its
origins again and takes them as they are, and no pass looks at the address
itself when it moves on.  So the bytes of a run that succeeds lie one behind the
other from wherever the second pass has placed the first of them.

* **`emitted`** — the bytes that statements emit, with their addresses;
* **`Consecutive`** — bytes that lie one behind the other;
* **`Effect.consecutive`** — what a statement emits, in front of the rest;
* **`Clean.consecutive_from`** — the bytes of a second pass;
* **`address_space`** — when all bytes lie between the zero page and the end of
  the address space, and when their addresses are printed with four digits;
* **`address_space_zero_page`** — a run that succeeds and places its bytes in the
  zero page.
-/
import Assembler6502.Proofs.Session.Formats
import Assembler6502.Proofs.Session.StableWidth
import Assembler6502.Proofs.Session.StartAddress
import Mathlib.Data.Nat.Digits.Defs

namespace Assembler6502

/-! ### Printed addresses -/

theorem Hexadecimal.length_digits_of_lt {n : Nat} (h : n < 0x10000) : (digits 4 n).length = 4 := by
  have hle : (Nat.toDigits 16 n).length ≤ 4 := Nat.toDigits_length 16 n 4 (by decide) h
  rw [digits, List.length_leftpad]
  omega

/-- The address in front of a line has four digits. -/
def Trace.FourDigits (line : List UInt8) : Prop :=
  (line.splitOn 0x20).head?.map List.length = some 4

theorem Trace.fourDigits_of_text {es : List Entry} (h : ∀ e ∈ es, e.address < 0x10000) :
    ∀ line ∈ ((text es).splitOn 0x0a).dropLast, FourDigits line := by
  rw [splitOn_text, List.dropLast_concat]
  intro line hline
  obtain ⟨e, he, rfl⟩ := List.mem_map.mp hline
  rw [FourDigits, splitOn_line, Entry.fields, List.head?_cons, Option.map_some, Byte.ofChars,
    List.length_map, Hexadecimal.length_digits_of_lt (h e he)]

namespace Assembly

variable {setting : Setting} {statement : Statement} {s t u : State} {e : Emitter}
  {vs : List Visit}

/-! ### Bytes and their addresses -/

/-- The bytes that a statement of the second pass emits, zeros of a gap included, with their
addresses. -/
def Visit.emitted (v : Visit) : List (Int32 × UInt8) :=
  (v.output .raw).mapIdx fun i byte => (v.before.address + Int32.ofNat i, byte)

def emitted (vs : List Visit) : List (Int32 × UInt8) :=
  vs.flatMap Visit.emitted

theorem emitted_cons (v : Visit) (vs : List Visit) : emitted (v :: vs) = v.emitted ++ emitted vs :=
  List.flatMap_cons

theorem Visit.map_snd_emitted (v : Visit) : v.emitted.map Prod.snd = v.output .raw := by
  refine List.ext_getElem? fun i => ?_
  rw [Visit.emitted, List.getElem?_map, List.getElem?_mapIdx, Option.map_map]
  exact congrFun Option.map_id_fun' _

/-- What is emitted is what is written if bytes are written alone. -/
theorem map_snd_emitted (vs : List Visit) :
    (emitted vs).map Prod.snd = vs.flatMap (Visit.output .raw) := by
  rw [emitted, List.map_flatMap]
  exact congrArg (vs.flatMap ·) (funext Visit.map_snd_emitted)

/-- Bytes lie one behind the other from an address on, as far as addresses do not come round. -/
def Consecutive (a : Int) (bytes : List (Int32 × UInt8)) : Prop :=
  ∀ (k : Nat) (x : Int32 × UInt8), bytes[k]? = some x → a + k < 0x80000000 → x.1.toInt = a + k

theorem Consecutive.append {a : Int} {bytes more : List (Int32 × UInt8)}
    (h : Consecutive a bytes)
    (hmore : a + bytes.length < 0x80000000 → Consecutive (a + bytes.length) more) :
    Consecutive a (bytes ++ more) := by
  intro k x hk hroom
  by_cases hlt : k < bytes.length
  · rw [List.getElem?_append_left hlt] at hk
    exact h k x hk hroom
  · rw [List.getElem?_append_right (Nat.le_of_not_lt hlt)] at hk
    have hx := hmore (by omega) (k - bytes.length) x hk (by omega)
    omega

/-- Bytes from a word on lie in a range if the first does and they are not too many. -/
theorem Consecutive.within_iff {a low : Int} {bytes : List (Int32 × UInt8)}
    (h : Consecutive a bytes) (hne : bytes ≠ []) (hword : a ≤ 0xffff) :
    (∀ x ∈ bytes, low ≤ x.1.toInt ∧ x.1.toInt ≤ 0xffff) ↔
      low ≤ a ∧ a + bytes.length ≤ 0x10000 := by
  constructor
  · intro hall
    have hat : ∀ k : Nat, k < bytes.length → a + k < 0x80000000 →
        low ≤ a + k ∧ a + k ≤ 0xffff := by
      intro k hk hroom
      have hget := List.getElem?_eq_getElem hk
      rw [← h k _ hget hroom]
      exact hall _ (List.mem_of_getElem? hget)
    have hpos : 0 < bytes.length := List.length_pos_iff.mpr hne
    refine ⟨?_, ?_⟩
    · have hfirst := hat 0 hpos (by omega)
      omega
    · -- otherwise there is a byte at `0x10000`
      by_contra hover
      have hlast := hat (0x10000 - a).toNat (by omega) (by omega)
      omega
  · rintro ⟨hlow, hfits⟩ x hx
    obtain ⟨k, hk⟩ := List.mem_iff_getElem?.mp hx
    have hlt : k < bytes.length := (List.getElem?_eq_some_iff.mp hk).1
    rw [h k x hk (by omega)]
    omega

theorem Visit.consecutive_emitted {v : Visit} (hstart : 0 ≤ v.start) :
    Consecutive v.start v.emitted := by
  intro k x hk hroom
  rw [Visit.emitted, List.getElem?_mapIdx] at hk
  obtain ⟨byte, -, rfl⟩ := Option.map_eq_some_iff.mp hk
  exact toInt_add_ofNat hstart hroom

/-! ### The second pass -/

/-- A statement of the second pass adds to the size of the image what it emits. -/
theorem Effect.size_emitted {e' : Emitter} (h : Effect setting statement s u)
    (hpass : setting.pass = .second) (himage : s.image = some e) (himage' : u.image = some e') :
    e'.size = e.size + (Visit.emitted ⟨s, statement⟩).length := by
  rw [Visit.emitted, List.length_mapIdx]
  have hsame : s.image = some e' → e'.size = e.size + 0 := by
    intro hs
    cases himage.symm.trans hs
    rfl
  cases h with
  | @instruction i _ bytes _ code output =>
    rw [himage] at output
    obtain ⟨_, hput, rfl⟩ := output
    cases himage'
    rw [(Emitter.put_eq_ok hput).2.2, Visit.output, Visit.code_of_encode (hpass ▸ code)]
    rfl
  | bytes output =>
    rw [himage] at output
    obtain ⟨_, hput, rfl⟩ := output
    cases himage'
    exact (Emitter.put_eq_ok hput).2.2
  | words output =>
    rw [wordBytes_eq, himage] at output
    obtain ⟨_, hput, rfl⟩ := output
    cases himage'
    exact (Emitter.put_eq_ok hput).2.2
  | firstOrigin pass =>
    rw [hpass] at pass
    cases pass
  | @secondOrigin origin _ image _ _ output =>
    cases hplaced : s.placed with
    | true =>
      rw [if_pos hplaced, himage] at output
      obtain ⟨_, hput, rfl⟩ := output
      cases himage'
      have houtput : Visit.output .raw ⟨s, .origin origin⟩ =
          List.replicate (origin - s.address).toNatClampNeg 0 := if_pos hplaced
      rw [(Emitter.put_eq_ok hput).2.2, houtput, List.length_replicate]
    | false =>
      rw [hplaced] at output
      have houtput : Visit.output .raw ⟨s, .origin origin⟩ = [] :=
        if_neg (by rw [hplaced]; exact Bool.false_ne_true)
      rw [houtput]
      exact hsame (output.symm.trans himage')
  | label =>
    rw [State.labelled_eq] at himage'
    exact hsame himage'
  | openScope =>
    rw [State.labelled_eq] at himage'
    exact hsame himage'
  | _ => exact hsame himage'

/-- A statement of the second pass emits as many bytes as the address moves on, once one is
placed. -/
theorem Effect.emits (h : Effect setting statement s u) (hpass : setting.pass = .second)
    (himage : s.image = some e) :
    ∃ e', u.image = some e' ∧ e'.size = e.size + (Visit.emitted ⟨s, statement⟩).length ∧
      ((s.placed = true ∨ statement.places = true) → u.placed = true ∧
        (0 ≤ s.address.toInt →
          s.address.toInt + (Visit.emitted ⟨s, statement⟩).length < 0x80000000 →
          u.address.toInt = s.address.toInt + (Visit.emitted ⟨s, statement⟩).length)) ∧
      (s.placed = false → statement.places = false → Visit.emitted ⟨s, statement⟩ = []) := by
  obtain ⟨e', n, himage', hgrew, hmoves, hstays⟩ := h.grew hpass himage
  have hsize := h.size_emitted hpass himage himage'
  have hcount : n = (Visit.emitted ⟨s, statement⟩).length := by
    have hsize' := hgrew.size
    omega
  rw [← hcount] at hsize ⊢
  refine ⟨e', himage', hsize, hmoves, fun hplaced hplaces => List.length_eq_zero_iff.mp ?_⟩
  rw [← hcount]
  exact (hstays hplaced hplaces).1

theorem Clean.size_emitted (h : Clean setting s vs t) (hpass : setting.pass = .second)
    (himage : s.image = some e) :
    ∃ e', t.image = some e' ∧ e'.size = e.size + (emitted vs).length := by
  induction h generalizing e with
  | finish => exact ⟨e, himage, rfl⟩
  | close _ _ _ ih => exact ih himage
  | @carry s t u statement r vs _ effect _ ih =>
    obtain ⟨e₁, himage₁, hsize₁, -, -⟩ := effect.emits hpass himage
    obtain ⟨e₂, himage₂, hsize₂⟩ := ih himage₁
    refine ⟨e₂, himage₂, ?_⟩
    rw [hsize₂, hsize₁, emitted_cons, List.length_append, Nat.add_assoc]
    rfl

/-- What a statement emits lies in front of what the rest emits, once a byte is placed. -/
theorem Effect.consecutive {r : Reading} (h : Effect setting statement (s.resume r) u)
    (hpass : setting.pass = .second) (himage : s.image = some e)
    (hplaced : s.placed = true ∨ statement.places = true) (hnonneg : 0 ≤ s.address.toInt)
    (hrest : ∀ e', u.image = some e' → u.placed = true → 0 ≤ u.address.toInt →
      Consecutive u.address.toInt (emitted vs)) :
    Consecutive s.address.toInt (emitted (⟨s, statement⟩ :: vs)) := by
  obtain ⟨e', himage', -, hmoves, -⟩ := h.emits hpass himage
  obtain ⟨hplaced', haddress⟩ := hmoves hplaced
  have hhere : Consecutive s.address.toInt (Visit.emitted ⟨s, statement⟩) :=
    Visit.consecutive_emitted hnonneg
  refine hhere.append fun hroom => ?_
  have hu : u.address.toInt = s.address.toInt + (Visit.emitted ⟨s, statement⟩).length :=
    haddress hnonneg hroom
  rw [← hu]
  exact hrest e' himage' hplaced' (by omega)

theorem Clean.consecutive (h : Clean setting s vs t) (hpass : setting.pass = .second)
    (himage : s.image = some e) (hplaced : s.placed = true) (hnonneg : 0 ≤ s.address.toInt) :
    Consecutive s.address.toInt (emitted vs) := by
  induction h generalizing e with
  | finish =>
    intro k x hk
    cases hk
  | close _ _ _ ih => exact ih himage hplaced hnonneg
  | carry _ effect _ ih =>
    exact effect.consecutive hpass himage (.inl hplaced) hnonneg
      fun e' himage' hplaced' hnonneg' => ih himage' hplaced' hnonneg'

/-- The bytes of a second pass lie one behind the other from the first of them on, which is placed
at a word. -/
theorem Clean.consecutive_from (h : Clean setting s vs t) (hpass : setting.pass = .second)
    (hs : s.Waiting e) {k : Nat} {w : Visit} (hw : vs[k]? = some w)
    (hplaces : w.statement.places = true)
    (hbefore : ∀ v ∈ vs.take k, v.statement.places = false) :
    0 ≤ w.start ∧ w.start ≤ 0xffff ∧ Consecutive w.start (emitted vs) := by
  induction h generalizing k with
  | finish => cases hw
  | close _ _ _ ih => exact ih ⟨hs.placed, hs.image, hs.nonneg, hs.word⟩ hw hbefore
  | @carry s t u statement r vs parsed effect rest ih =>
    cases k with
    | zero =>
      cases hw
      refine ⟨hs.nonneg, hs.word, ?_⟩
      exact effect.consecutive hpass hs.image (.inr hplaces) hs.nonneg
        fun e' himage hplaced hnonneg => rest.consecutive hpass himage hplaced hnonneg
    | succ k =>
      -- nothing is emitted before the first byte
      rw [List.take_succ_cons] at hbefore
      have hnone : statement.places = false := hbefore _ List.mem_cons_self
      obtain ⟨-, -, -, -, hstays⟩ := effect.emits hpass hs.image
      have hempty : Visit.emitted ⟨s, statement⟩ = [] := hstays hs.placed hnone
      rw [emitted_cons, hempty, List.nil_append]
      exact ih (effect.waiting hs hpass parsed hnone) hw fun v hv =>
        hbefore v (List.mem_cons_of_mem _ hv)

/-! ### The first pass -/

/-- The first pass takes no origin in the zero page. -/
theorem Clean.origin_above (h : Clean setting s vs t) (hpass : setting.pass = .first) :
    ∀ v ∈ vs, ∀ origin, v.statement = .origin origin → 0x100 ≤ origin.toInt := by
  induction h with
  | finish => exact fun v hv => absurd hv List.not_mem_nil
  | close _ _ _ ih => exact ih
  | carry _ effect _ ih =>
    intro v hv origin horigin
    rcases List.mem_cons.mp hv with rfl | hv
    · cases horigin
      exact aboveZeroPage_iff.mp (effect.origin_above hpass)
    · exact ih v hv origin horigin

/-- A statement that places no bytes leaves the first pass above the zero page. -/
theorem Effect.above (h : Effect setting statement s u) (hpass : setting.pass = .first)
    (hplaces : statement.places = false) (hs : AboveZeroPage s.address) :
    AboveZeroPage u.address := by
  by_cases horigin : ∃ x, statement = .origin x
  · obtain ⟨x, rfl⟩ := horigin
    rw [h.address]
    exact h.origin_above hpass
  · obtain ⟨-, -, haddress⟩ := h.still hplaces fun x hx => horigin ⟨x, hx⟩
    rw [haddress]
    exact hs

/-! ### The trace -/

/-- A statement that places bytes emits its code. -/
theorem Visit.output_raw {v : Visit} (h : v.statement.places = true) : v.output .raw = v.code := by
  unfold Visit.output
  cases hstatement : v.statement with
  | instruction | bytes | words => rfl
  | _ =>
    rw [hstatement] at h
    cases h

theorem exists_of_mem_dataEntries {address : Int32} {bytes : List UInt8} {entry : Trace.Entry}
    (h : entry ∈ Trace.dataEntries address bytes) :
    ∃ i < bytes.length, entry.address = (address + Int32.ofNat i).toUInt32.toNat := by
  induction bytes generalizing address with
  | nil => cases h
  | cons byte rest ih =>
    rcases List.mem_cons.mp h with rfl | h
    · refine ⟨0, Nat.succ_pos _, ?_⟩
      rw [show address + Int32.ofNat 0 = address from Int32.add_zero address]
    · obtain ⟨i, hi, haddress⟩ := ih h
      refine ⟨i + 1, Nat.succ_lt_succ hi, ?_⟩
      rw [haddress, Int32.ofNat_add, Int32.add_comm (Int32.ofNat i), ← Int32.add_assoc]
      rfl

/-- A line of the trace has the address of a byte that is emitted. -/
theorem Visit.exists_emitted {v : Visit} (hplaces : v.statement.places = true) (hcode : v.code ≠ [])
    {entry : Trace.Entry} (h : entry ∈ v.entries) :
    ∃ x ∈ v.emitted, entry.address = x.1.toUInt32.toNat := by
  have hindex : ∃ i < v.code.length,
      entry.address = (v.before.address + Int32.ofNat i).toUInt32.toNat := by
    unfold Visit.entries at h
    cases hstatement : v.statement with
    | instruction i =>
      rw [hstatement] at h
      rw [List.mem_singleton.mp h]
      refine ⟨0, List.length_pos_iff.mpr hcode, ?_⟩
      rw [show v.before.address + Int32.ofNat 0 = v.before.address from Int32.add_zero _]
    | bytes data =>
      rw [hstatement] at h
      exact exists_of_mem_dataEntries h
    | words data =>
      rw [hstatement] at h
      exact exists_of_mem_dataEntries h
    | _ =>
      rw [hstatement] at hplaces
      cases hplaces
  obtain ⟨i, hi, haddress⟩ := hindex
  refine ⟨(v.before.address + Int32.ofNat i, v.code[i]), ?_, haddress⟩
  rw [Visit.emitted, Visit.output_raw hplaces]
  exact List.mem_mapIdx.mpr ⟨i, hi, rfl⟩

/-- If the bytes lie below the end of the address space, all lines of the trace have addresses of
four digits. -/
theorem Clean.address_lt (h : Clean setting s vs t) (hpass : setting.pass = .second)
    (hwithin : ∀ x ∈ emitted vs, 0 ≤ x.1.toInt ∧ x.1.toInt ≤ 0xffff) :
    ∀ entry ∈ vs.flatMap Visit.entries, entry.address < 0x10000 := by
  intro entry hentry
  rw [flatMap_entries_eq] at hentry
  obtain ⟨v, hv, hmem⟩ := List.mem_flatMap.mp hentry
  obtain ⟨hvisit, hplaces⟩ := List.mem_filter.mp hv
  obtain ⟨x, hx, haddress⟩ := Visit.exists_emitted hplaces (h.code_ne_nil hpass v hv) hmem
  obtain ⟨hnonneg, hword⟩ := hwithin x (List.mem_flatMap.mpr ⟨v, hvisit, hx⟩)
  have hnat := Instruction.toNat_toUInt32 hnonneg
  omega

end Assembly

open Assembler6502.Assembly

namespace Session

variable {disk : Disk} {input : Input} {job done : Job} {report : Report}

theorem Passes.length_emitted (p : Passes disk input job report done) :
    (emitted (secondVisits disk input job)).length = report.size := by
  obtain ⟨e, himage, hsize⟩ := p.second.size_emitted rfl rfl
  have hempty : p.emitter.size = 0 := (Emitter.grew_of_put p.begun).size
  rw [congrArg Report.size p.report_eq, himage]
  show _ = e.size
  rw [hsize, hempty, Nat.zero_add]

/-- Let the origin of a session lie above the zero page.  A run that succeeds emits as many bytes as
it reports, one behind the other from a word on.  The first pass has no origin in the zero page and
comes to the first byte above it; the second pass comes to it at the same address if and only if the
two do not differ by then.  All bytes lie between the zero page and the end of the address space if
and only if the first one lies above the zero page there and the others have room behind it; and if
they have room, every address in the trace has four digits. -/
theorem address_space (h : assemble disk input job = .ok report done)
    (horigin : 0x100 ≤ job.session.options.origin) (hsize : 0 < report.size) :
    ∃ (k : Nat) (v w : Visit), (firstVisits disk input job.session)[k]? = some v ∧
      (secondVisits disk input job)[k]? = some w ∧ w.statement.places = true ∧
      (∀ u ∈ (secondVisits disk input job).take k, u.statement.places = false) ∧
      (emitted (secondVisits disk input job)).length = report.size ∧
      (job.session.options.format = .raw → done.writer.written =
        job.writer.written ++ (emitted (secondVisits disk input job)).map Prod.snd) ∧
      0 ≤ w.start ∧ w.start ≤ 0xffff ∧
      Consecutive w.start (emitted (secondVisits disk input job)) ∧
      (∀ u ∈ firstVisits disk input job.session, ∀ origin,
        u.statement = .origin origin → 0x100 ≤ origin.toInt) ∧
      0x100 ≤ v.start ∧
      (w.start = v.start ↔ drift
        (((firstVisits disk input job.session).zip (secondVisits disk input job)).take k) = 0) ∧
      ((∀ x ∈ emitted (secondVisits disk input job), 0x100 ≤ x.1.toInt ∧ x.1.toInt ≤ 0xffff) ↔
        0x100 ≤ w.start ∧ w.start + report.size ≤ 0x10000) ∧
      (job.session.options.format = .screen → w.start + report.size ≤ 0x10000 →
        ∃ trace, done.writer.written = job.writer.written ++ trace ∧
          ∀ line ∈ (trace.splitOn 0x0a).dropLast, Trace.FourDigits line) := by
  obtain ⟨p⟩ := passes_of_assemble h
  obtain ⟨k, v, w, hv, hw, -, hplaces, hplaces', hbefore, hbefore'⟩ := p.exists_first_byte hsize
  obtain ⟨hnonneg, hword, hconsecutive⟩ :=
    p.second.consecutive_from rfl p.waiting hw hplaces' hbefore'
  have hlength := p.length_emitted
  have hne : emitted (secondVisits disk input job) ≠ [] := by
    rw [← List.length_pos_iff, hlength]
    exact hsize
  have hwritten := written_of_assemble h
  have habove : AboveZeroPage v.before.address :=
    (p.first.before_placing (P := fun s => AboveZeroPage s.address) (aboveZeroPage_origin horigin)
      (fun hs => hs) (fun hs _ effect hnone => effect.above rfl hnone hs) hv hbefore).1
  refine ⟨k, v, w, hv, hw, hplaces', hbefore', hlength, ?_, hnonneg, hword, hconsecutive,
    p.first.origin_above rfl, aboveZeroPage_iff.mp habove, ?_, ?_, ?_⟩
  · intro hraw
    rw [hwritten, hraw, map_snd_emitted]
    rfl
  · have haddress := p.together.address (Int32.add_zero _).symm hv hw
    rw [Visit.start, Visit.start, Int32.toInt_inj, haddress]
    exact Int32.add_eq_left
  · rw [← hlength]
    exact hconsecutive.within_iff hne hword
  · intro hscreen hroom
    rw [← hlength] at hroom
    have hwithin := (hconsecutive.within_iff hne hword).mpr ⟨hnonneg, hroom⟩
    rw [hscreen, fileOf_screen] at hwritten
    exact ⟨_, hwritten, Trace.fourDigits_of_text (p.second.address_lt rfl hwithin)⟩

/-- An origin that names a label ahead: `$100` with the placeholder of the first pass, and `$10`
with the address of the label. -/
def lowInput : Input :=
  .text "main" (Byte.ofChars " *=e/16\n nop\ne: nop\n".toList)

/-- Both bytes lie in the zero page, though the first pass was above it. -/
theorem address_space_zero_page :
    ∃ report done, ∃ v w : Visit, assemble (.empty []) lowInput .plain = .ok report done ∧
      report = ⟨0x100, 0x12, 2⟩ ∧ done.writer.written = [0xea, 0xea] ∧
      emitted (secondVisits (.empty []) lowInput .plain) = [(0x10, 0xea), (0x11, 0xea)] ∧
      v ∈ firstVisits (.empty []) lowInput Job.plain.session ∧
      w ∈ secondVisits (.empty []) lowInput .plain ∧ 0x100 ≤ v.start ∧ w.start = 0x10 := by
  obtain ⟨report, done, hrun, hresult⟩ :=
    exists_of_trace (n := 9)
      (f := fun (_, ws, report, done) => (report, done.writer.written, emitted ws))
      (show (trace 9 (.empty []) lowInput .plain).map _ =
          some ((⟨0x100, 0x12, 2⟩ : Report), ([0xea, 0xea] : List UInt8),
            ([(0x10, 0xea), (0x11, 0xea)] : List (Int32 × UInt8))) by decide +kernel)
  simp only [Prod.mk.injEq] at hresult
  obtain ⟨hreport, hwritten, hemitted⟩ := hresult
  have hsize : 0 < report.size := by
    rw [hreport]
    decide
  obtain ⟨k, v, w, hv, hw, -, -, -, -, -, hword, hconsecutive, -, habove, -, -, -⟩ :=
    address_space hrun (by decide) hsize
  refine ⟨report, done, v, w, hrun, hreport, hwritten, hemitted, List.mem_of_getElem? hv,
    List.mem_of_getElem? hw, habove, ?_⟩
  have hfirst : (0x10 : Int32).toInt = w.start + (0 : Nat) :=
    hconsecutive 0 (0x10, 0xea) (by rw [hemitted]; rfl) (by omega)
  rw [Int.natCast_zero, Int.add_zero] at hfirst
  exact hfirst.symm

end Session

end Assembler6502
