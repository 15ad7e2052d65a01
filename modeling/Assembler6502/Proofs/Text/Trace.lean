/-
Reading a trace.

A trace has a line for each instruction and each byte of data: the address of
the first byte, and the bytes, all in hexadecimal.  The reader here knows nothing
but that.  It cuts a text into lines and a line at its spaces.

* **`Trace.entries?`** — the entries of a trace;
* **`entries?_text`** — the entries of a printed trace are those that were
  printed;
* **`Trace.listed`** — the bytes that entries list with their addresses, which
  count up within an entry;
* **`Trace.image`** — the bytes from the first address on, with zeros where none
  is listed.
-/
import Assembler6502.Image
import Assembler6502.Proofs.Text.Numerals

namespace Assembler6502

namespace Trace

/-- A line of a trace: the address of its first byte, and its bytes. -/
structure Entry where
  address : Nat
  bytes : List UInt8
deriving DecidableEq

/-! ### Reading -/

/-- A number in hexadecimal. -/
def number? (field : List UInt8) : Option Nat :=
  Radix.hexadecimal.natural? (field.map Byte.char)

def entry? (line : List UInt8) : Option Entry :=
  match line.splitOn 0x20 with
  | [] => none
  | address :: bytes => do
    let address ← number? address
    let bytes ← bytes.mapM number?
    return ⟨address, bytes.map UInt8.ofNat⟩

/-- The entries of a trace, each on a line that ends in a line feed. -/
def entries? (text : List UInt8) : Option (List Entry) :=
  (text.splitOn 0x0a).dropLast.mapM entry?

/-! ### Printing -/

/-- A byte as it is printed. -/
def byteField (b : UInt8) : List UInt8 :=
  Byte.ofChars (Hexadecimal.digits 2 b.toNat)

/-- The fields of an entry as they are printed. -/
def Entry.fields (e : Entry) : List (List UInt8) :=
  Byte.ofChars (Hexadecimal.digits 4 e.address) :: e.bytes.map byteField

/-- An entry as it is printed, without its line end. -/
def Entry.line (e : Entry) : List UInt8 :=
  [0x20].intercalate e.fields

/-- A trace as it is printed. -/
def text (es : List Entry) : List UInt8 :=
  es.flatMap fun e => e.line ++ [0x0a]

theorem intercalate_cons {x : UInt8} (field : List UInt8) (fields : List (List UInt8)) :
    [x].intercalate (field :: fields) = field ++ fields.flatMap fun f => x :: f := by
  induction fields generalizing field with
  | nil => simp [List.intercalate]
  | cons next fields ih =>
    rw [List.intercalate_cons_cons, ih, List.flatMap_cons]
    simp

/-- The trace that is written for an instruction. -/
theorem traceLine_eq (address : Int32) (bytes : List UInt8) :
    Format.traceLine address bytes = text [⟨address.toUInt32.toNat, bytes⟩] := by
  have hbytes : Byte.ofChars (bytes.flatMap fun b => ' ' :: Hexadecimal.byte b) =
      (bytes.map byteField).flatMap fun f => 0x20 :: f := by
    unfold Byte.ofChars
    rw [List.map_flatMap, List.flatMap_map]
    rfl
  rw [text, List.flatMap_singleton, Entry.line, Entry.fields, intercalate_cons, ← hbytes]
  unfold Format.traceLine Byte.ofChars
  rw [List.map_append, List.map_append]
  rfl

/-! ### Reading what was printed -/

theorem number?_digits (length n : Nat) :
    number? (Byte.ofChars (Hexadecimal.digits length n)) = some n := by
  have hchars : (Byte.ofChars (Hexadecimal.digits length n)).map Byte.char =
      Hexadecimal.digits length n := by
    rw [Byte.ofChars, List.map_map]
    refine (List.map_congr_left fun c hc => ?_).trans (List.map_id _)
    have hdigit := Hexadecimal.forall_mem_digits
      (p := fun c => Byte.char c.toUInt8 == c) (by decide) length n c hc
    simpa using hdigit
  rw [number?, hchars, Radix.natural?_digits]

theorem number?_byteField (b : UInt8) : number? (byteField b) = some b.toNat :=
  number?_digits 2 b.toNat

/-- A byte that is no digit does not stand in a number. -/
theorem not_mem_digits {x : UInt8} (hx : ∀ d < 16, ((Nat.digitChar d).toUInt8 != x) = true)
    (length n : Nat) : x ∉ Byte.ofChars (Hexadecimal.digits length n) := by
  intro hmem
  obtain ⟨c, hc, rfl⟩ := List.mem_map.mp hmem
  have hdigit :=
    Hexadecimal.forall_mem_digits (p := fun d => d.toUInt8 != c.toUInt8) hx length n c hc
  simp at hdigit

theorem not_mem_fields {x : UInt8} (hx : ∀ d < 16, ((Nat.digitChar d).toUInt8 != x) = true)
    (e : Entry) : ∀ field ∈ e.fields, x ∉ field := by
  intro field hfield
  rcases List.mem_cons.mp hfield with rfl | hfield
  · exact not_mem_digits hx 4 e.address
  · obtain ⟨b, -, rfl⟩ := List.mem_map.mp hfield
    exact not_mem_digits hx 2 b.toNat

/-- Fields that are read one by one. -/
theorem mapM_map_eq_some {α β γ : Type} {f : β → Option γ} {print : α → β} {g : α → γ}
    (h : ∀ x, f (print x) = some (g x)) (xs : List α) :
    (xs.map print).mapM f = some (xs.map g) := by
  induction xs with
  | nil => rfl
  | cons x xs ih =>
    rw [List.map_cons, List.mapM_cons, h, ih]
    rfl

theorem splitOn_line (e : Entry) : e.line.splitOn 0x20 = e.fields :=
  List.splitOn_intercalate 0x20 (not_mem_fields (by decide) e) (List.cons_ne_nil _ _)

theorem entry?_line (e : Entry) : entry? e.line = some e := by
  have hread : (e.bytes.map byteField).mapM number? = some (e.bytes.map UInt8.toNat) :=
    mapM_map_eq_some number?_byteField e.bytes
  have hbytes : (e.bytes.map UInt8.toNat).map UInt8.ofNat = e.bytes := by
    rw [List.map_map]
    exact (List.map_congr_left fun b _ => UInt8.ofNat_toNat).trans (List.map_id _)
  unfold entry?
  rw [splitOn_line, Entry.fields]
  simp only [number?_digits, hread, hbytes, Option.bind_eq_bind, Option.bind_some]
  rfl

theorem not_mem_line (e : Entry) : 0x0a ∉ e.line := by
  rw [Entry.line, Entry.fields, intercalate_cons]
  intro hmem
  have hfields := not_mem_fields (x := 0x0a) (by decide) e
  rcases List.mem_append.mp hmem with hmem | hmem
  · exact hfields _ List.mem_cons_self hmem
  · obtain ⟨field, hfield, hmem⟩ := List.mem_flatMap.mp hmem
    rcases List.mem_cons.mp hmem with habsurd | hmem
    · exact absurd habsurd (by decide)
    · exact hfields field (List.mem_cons_of_mem _ hfield) hmem

theorem text_eq_intercalate (es : List Entry) :
    text es = [0x0a].intercalate (es.map Entry.line ++ [[]]) := by
  induction es with
  | nil => rfl
  | cons e es ih =>
    obtain ⟨first, rest, hlines⟩ : ∃ first rest, es.map Entry.line ++ [[]] = first :: rest :=
      List.exists_cons_of_ne_nil (by simp)
    rw [List.map_cons, List.cons_append, hlines, List.intercalate_cons_cons, ← hlines, ← ih, text,
      List.flatMap_cons]
    rfl

/-- A printed trace has the line of each entry, and an empty line behind the last line end. -/
theorem splitOn_text (es : List Entry) : (text es).splitOn 0x0a = es.map Entry.line ++ [[]] := by
  rw [text_eq_intercalate]
  refine List.splitOn_intercalate 0x0a (fun line hline => ?_) (by simp)
  rcases List.mem_append.mp hline with hline | hline
  · obtain ⟨e, -, rfl⟩ := List.mem_map.mp hline
    exact not_mem_line e
  · rw [List.mem_singleton.mp hline]
    exact List.not_mem_nil

/-- The entries of a printed trace are those that were printed. -/
theorem entries?_text (es : List Entry) : entries? (text es) = some es := by
  rw [entries?, splitOn_text, List.dropLast_concat]
  exact (mapM_map_eq_some entry?_line es).trans (congrArg some (List.map_id es))

/-! ### Data -/

/-- The entries of data, one for each byte. -/
def dataEntries (address : Int32) : List UInt8 → List Entry
  | [] => []
  | b :: rest => ⟨address.toUInt32.toNat, [b]⟩ :: dataEntries (address + 1) rest

/-- The trace that is written for data. -/
theorem traceData_eq (address : Int32) (bytes : List UInt8) :
    Format.traceData address bytes = text (dataEntries address bytes) := by
  induction bytes generalizing address with
  | nil => rfl
  | cons b rest ih =>
    rw [Format.traceData, traceLine_eq, ih, dataEntries]
    exact List.flatMap_append.symm

/-! ### The bytes that are listed -/

/-- The bytes of an entry with their addresses. -/
def Entry.listed (e : Entry) : List (Nat × UInt8) :=
  e.bytes.mapIdx fun i b => (e.address + i, b)

/-- The bytes that entries list with their addresses. -/
def listed (es : List Entry) : List (Nat × UInt8) :=
  es.flatMap Entry.listed

theorem Entry.mem_listed {e : Entry} {a : Nat} {b : UInt8} :
    (a, b) ∈ e.listed ↔ ∃ i, e.bytes[i]? = some b ∧ a = e.address + i := by
  unfold Entry.listed
  rw [List.mem_mapIdx]
  constructor
  · rintro ⟨i, hi, heq⟩
    cases heq
    exact ⟨i, List.getElem?_eq_getElem hi, rfl⟩
  · rintro ⟨i, hb, rfl⟩
    obtain ⟨hi, rfl⟩ := List.getElem?_eq_some_iff.mp hb
    exact ⟨i, hi, rfl⟩

/-- The address of the first byte, if there is one. -/
def start (es : List Entry) : Nat :=
  (es.head?.map Entry.address).getD 0

/-- As many bytes as `size` from the first address on, zero where no byte is listed. -/
def image (size : Nat) (es : List Entry) : List UInt8 :=
  (List.range size).map fun k => ((listed es).lookup (start es + k)).getD 0

/-- Entries tell of an image: every byte that they list is there at its address, and every other
byte is zero. -/
structure Shows (es : List Entry) (bytes : List UInt8) : Prop where
  listed : ∀ a b, (a, b) ∈ listed es → start es ≤ a ∧ bytes[a - start es]? = some b
  unlisted : ∀ a, start es ≤ a → a < start es + bytes.length → (∀ b, (a, b) ∉ Trace.listed es) →
    bytes[a - start es]? = some 0

/-- What entries tell of can be rebuilt from them and its size. -/
theorem Shows.image_eq {es : List Entry} {bytes : List UInt8} (h : Shows es bytes) :
    image bytes.length es = bytes := by
  refine List.ext_getElem? fun k => ?_
  unfold image
  rw [List.getElem?_map]
  by_cases hk : k < bytes.length
  · rw [List.getElem?_range hk, Option.map_some]
    cases hlookup : (Trace.listed es).lookup (start es + k) with
    | some b =>
      obtain ⟨front, back, hsplit, -⟩ := List.lookup_eq_some_iff.mp hlookup
      have hmem : (start es + k, b) ∈ Trace.listed es := by simp [hsplit]
      have hbyte := (h.listed _ _ hmem).2
      rw [Nat.add_sub_cancel_left] at hbyte
      exact hbyte.symm
    | none =>
      have hnone : ∀ b, (start es + k, b) ∉ Trace.listed es := by
        intro b hmem
        have hne := List.lookup_eq_none_iff.mp hlookup _ hmem
        simp at hne
      have hzero := h.unlisted (start es + k) (by omega) (by omega) hnone
      rw [Nat.add_sub_cancel_left] at hzero
      exact hzero.symm
  · rw [List.getElem?_eq_none (by simpa using hk), List.getElem?_eq_none (by omega)]
    rfl

end Trace

end Assembler6502
