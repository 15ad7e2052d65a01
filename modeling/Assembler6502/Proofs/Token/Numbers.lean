/-
Numbers as they are written.

The digits of a number stand behind the mark of their radix, with spaces and
tabs between, or alone if they are decimal.  A number is read as its positional
value, however many digits it has, as long as the value fits in 31 bits.  What
goes on like a word directly behind the digits spoils them.

* **`Radix.figures`**, **`Radix.positional`** — the digits of a radix, and what
  digits in a row are worth;
* **`Numeral`** — a number as it is written, in any case of its letters;
* **`Numeral.Behind`** — what stands behind the digits;
* **`integer?_of_figures`** — digits are converted to their value, or not at all;
* **`Cursor.scan_numeral`** — how a numeral is scanned;
* **`Point.leads_hexadecimal`** — a number that is printed, in either case, is read
  as itself;
* **`Parser.numeral_exact`** — how a numeral is read, and that the radix ends with
  it.

Design notes.  Whether a byte is a digit is asked three times: for the extent of
the digits, for what follows them, and for their value.  All three are compared
with the list of figures of the radix, which says what the digits are and, by
their order, what they are worth.
-/
import Assembler6502.Proofs.Text.Numerals
import Assembler6502.Proofs.Token.Canonical
import Assembler6502.Proofs.Token.Points
import Mathlib.Data.List.Induction
import Mathlib.Data.Nat.Digits.Defs

namespace Assembler6502

/-! ### Digits -/

namespace Radix

/-- The digits of a radix in the order of their values. -/
def figures (r : Radix) : List Char :=
  ['0', '1', '2', '3', '4', '5', '6', '7', '8', '9', 'a', 'b', 'c', 'd', 'e', 'f'].take r.base

/-- What digits in a row are worth, the first one most. -/
def positional (r : Radix) (digits : List Char) : Nat :=
  Nat.ofDigits r.base (digits.map r.figures.idxOf).reverse

variable {r : Radix} {digits : List Char}

theorem digit?_of_mem {c : Char} (h : c ∈ r.figures) :
    r.digit? c = some (r.figures.idxOf c) := by
  have hall : (r.figures.all fun c => r.digit? c = some (r.figures.idxOf c)) = true := by
    cases r <;> decide
  exact of_decide_eq_true (List.all_eq_true.mp hall c h)

theorem figures_of_all {bytes : List UInt8}
    (h : (bytes.all fun b => r.figures.contains (Byte.folded b)) = true) :
    ∀ b ∈ bytes, Byte.folded b ∈ r.figures :=
  fun b hb => List.contains_iff_mem.mp (List.all_eq_true.mp h b hb)

/-- The bytes that are taken for digits are the figures, in either case. -/
theorem isDigit_folded_iff :
    ∀ b, r.isDigit (Byte.folded b) = true ↔ Byte.folded b ∈ r.figures := by
  cases r <;> exact Byte.forall_of_forall_lt (by decide +kernel)

theorem positional_concat (r : Radix) (digits : List Char) (c : Char) :
    r.positional (digits ++ [c]) = r.positional digits * r.base + r.figures.idxOf c := by
  unfold positional
  rw [List.map_append, List.map_singleton, List.reverse_append, List.reverse_singleton,
    List.singleton_append, Nat.ofDigits_cons, Nat.mul_comm, Nat.add_comm]

/-- Figures in a row have their positional value. -/
theorem natural?_of_figures (h : ∀ c ∈ digits, c ∈ r.figures) :
    r.natural? digits = some (r.positional digits) := by
  -- the last digit is the one that is worth its figure
  induction digits using List.reverseRecOn with
  | nil => rfl
  | append_singleton digits c ih =>
    have hdigits : r.natural? digits = some (r.positional digits) :=
      ih fun d hd => h d (List.mem_append_left _ hd)
    have hc := digit?_of_mem (h c (by simp))
    unfold natural? at hdigits ⊢
    rw [List.foldlM_append, hdigits, positional_concat]
    simp [hc]

/-- No sign is a figure, so figures are converted to their value if it fits in 31 bits, and
otherwise not. -/
theorem integer?_of_figures (hne : digits ≠ []) (h : ∀ c ∈ digits, c ∈ r.figures) :
    r.integer? digits =
      if r.positional digits < 0x80000000 then some (Int32.ofNat (r.positional digits))
      else none := by
  have hminus : '-' ∉ r.figures := by cases r <;> decide
  have hplus : '+' ∉ r.figures := by cases r <;> decide
  unfold integer?
  split
  · exact absurd rfl hne
  · exact absurd (h '-' List.mem_cons_self) hminus
  · exact absurd (h '+' List.mem_cons_self) hplus
  · rw [natural?_of_figures h]
    rfl

/-- The bytes that select a radix in front of its digits. -/
def mark : Radix → List UInt8
  | hexadecimal => [0x24]
  | binary => [0x25]
  | decimal => []

end Radix

/-! ### Numerals -/

namespace Byte

/-- Nothing of a word is skipped in front of a token. -/
theorem isSolid_of_isWord : ∀ b, isWord b = true → isSolid b = true :=
  forall_of_forall_lt (by decide +kernel)

theorem isWord_of_isDigit :
    ∀ b, Radix.hexadecimal.isDigit (folded b) = true → isWord b = true :=
  forall_of_forall_lt (by decide +kernel)

end Byte

/-- A number as it is written: digits of a radix, in either case, behind the mark of the radix with
spaces and tabs.  Decimal digits have no mark and stand alone. -/
structure Numeral where
  radix : Radix
  spacing : List UInt8
  digits : List UInt8
  spaced : ∀ b ∈ spacing, b = 0x20 ∨ b = 0x09
  alone : radix = .decimal → spacing = []
  nonempty : digits ≠ []
  figures : ∀ b ∈ digits, Byte.folded b ∈ radix.figures

namespace Numeral

def bytes (n : Numeral) : List UInt8 :=
  n.radix.mark ++ n.spacing ++ n.digits

/-- The number that is written. -/
def value (n : Numeral) : Nat :=
  n.radix.positional (n.digits.map Byte.folded)

/-- What stands directly behind the digits: letters, digits and underscores, the first of which is
no digit of the radix, and then a byte that is none of these, or the end of the input. -/
structure Behind (n : Numeral) (extra after : List UInt8) : Prop where
  word : ∀ b ∈ extra, Byte.isWord b = true
  other : ∀ b ∈ extra.head?, Byte.folded b ∉ n.radix.figures
  ends : ∀ b ∈ after.head?, Byte.isWord b = false

/-- The lexeme of a numeral, if nothing goes on behind its digits and its number fits in 31 bits. -/
def lexeme (n : Numeral) (extra : List UInt8) : Except ScanError (Lexeme Spelling) :=
  if extra = [] ∧ n.value < 0x80000000 then .ok (.constant (Int32.ofNat n.value))
  else .error (.malformedNumber (Byte.foldedText (n.digits ++ extra)))

variable {n : Numeral} {extra after : List UInt8}

theorem isWord_of_figure {r : Radix} {b : UInt8} (h : Byte.folded b ∈ r.figures) :
    Byte.isWord b = true := by
  have hsub : r.figures <+: Radix.hexadecimal.figures := by cases r <;> decide
  exact Byte.isWord_of_isDigit b ((Radix.isDigit_folded_iff b).mpr (hsub.subset h))

/-- No digit of the radix stands directly behind the digits. -/
theorem Behind.no_figure (h : n.Behind extra after) :
    ∀ b ∈ (extra ++ after).head?, Byte.folded b ∉ n.radix.figures := by
  cases extra with
  | nil =>
    intro b hb hfigure
    have hword := isWord_of_figure hfigure
    rw [h.ends b hb] at hword
    cases hword
  | cons first rest => exact h.other

theorem integer?_digits (n : Numeral) :
    n.radix.integer? (n.digits.map Byte.folded) =
      if n.value < 0x80000000 then some (Int32.ofNat n.value) else none := by
  refine Radix.integer?_of_figures (by simpa using n.nonempty) fun c hc => ?_
  obtain ⟨b, hb, rfl⟩ := List.mem_map.mp hc
  exact n.figures b hb

/-- A numeral begins with its mark or with a decimal digit, both of which are read where they
stand. -/
theorem exists_bytes_eq (n : Numeral) :
    ∃ b rest, n.bytes = b :: rest ∧ Byte.isSolid b = true := by
  obtain ⟨b, rest, hdigits⟩ := List.exists_cons_of_ne_nil n.nonempty
  cases hradix : n.radix with
  | hexadecimal => exact ⟨0x24, n.spacing ++ n.digits, by simp [bytes, hradix, Radix.mark], by decide⟩
  | binary => exact ⟨0x25, n.spacing ++ n.digits, by simp [bytes, hradix, Radix.mark], by decide⟩
  | decimal =>
    refine ⟨b, rest, by simp [bytes, hradix, Radix.mark, n.alone hradix, hdigits], ?_⟩
    have hb : Byte.folded b ∈ Radix.decimal.figures := by
      rw [← hradix]
      exact n.figures b (by rw [hdigits]; exact List.mem_cons_self)
    exact Byte.isSolid_of_isWord b (isWord_of_figure hb)

end Numeral

/-! ### Scanning -/

namespace Cursor

variable {c : Cursor} {n : Numeral} {extra after : List UInt8}

theorem skipWhile_run {p : UInt8 → Bool} {run behind : List UInt8} (h : c.rest = run ++ behind)
    (hrun : ∀ b ∈ run, p b = true) (hbehind : ∀ b ∈ behind.head?, p b = false) :
    c.skipWhile p = c.skip run.length := by
  obtain ⟨htake, hdrop⟩ := Byte.span_run hrun hbehind
  rw [skipWhile, skip, h, htake, hdrop, List.drop_left]

theorem skip_skip (c : Cursor) (m k : Nat) : (c.skip m).skip k = c.skip (m + k) := by
  simp only [skip, Position.right, List.drop_drop, Nat.add_assoc]

/-- The digits of a numeral are scanned up to where they end. -/
theorem number_numeral (h : c.rest = n.digits ++ (extra ++ after)) (hbehind : n.Behind extra after) :
    c.number n.radix = (n.lexeme extra, c.skip (n.digits.length + extra.length)) := by
  have hdigits : ∀ b ∈ n.digits, n.radix.isDigit (Byte.folded b) = true :=
    fun b hb => (Radix.isDigit_folded_iff _).mpr (n.figures b hb)
  have hstop : ∀ b ∈ (extra ++ after).head?, n.radix.isDigit (Byte.folded b) = false :=
    fun b hb => Bool.eq_false_iff.mpr fun hdigit =>
      hbehind.no_figure b hb ((Radix.isDigit_folded_iff b).mp hdigit)
  have hskip := skipWhile_run h hdigits hstop
  have htake := (Byte.span_run hdigits hstop).1
  have hrest : (c.skip n.digits.length).rest = extra ++ after := by
    rw [skip, h, List.drop_left]
  have hextra := (Byte.span_run hbehind.word hbehind.ends).1
  have hread := skipWhile_run hrest hbehind.word hbehind.ends
  unfold number Numeral.lexeme
  dsimp only
  rw [hskip, hread, hrest, hextra, h, htake, n.integer?_digits, skip_skip]
  cases extra with
  | nil =>
    by_cases hfits : n.value < 0x80000000
    · simp [hfits]
    · simp [hfits]
  | cons first rest => simp

theorem scan_eq_number {b : UInt8} {rest : List UInt8} (h : c.rest = b :: rest)
    (hb : Byte.folded b ∈ Radix.decimal.figures) : c.scan = c.number .decimal := by
  have hall : (Radix.decimal.figures.all fun first =>
      (Lexeme.sign? first : Option (Lexeme Spelling)) = none ∧ Radix.ofMark? first = none ∧
        first ≠ '"' ∧ first ≠ '@' ∧ first ≠ '#' ∧ first ≠ '<' ∧ first ≠ '>' ∧
          first.isDigit = true) = true := by
    decide
  obtain ⟨hsign, hmark, hquote, hat, hhash, hless, hgreater, hdigit⟩ :=
    of_decide_eq_true (List.all_eq_true.mp hall _ hb)
  unfold scan
  rw [h]
  dsimp only
  rw [hsign, hmark]
  dsimp only
  rw [if_neg hquote, if_neg hat, if_neg hhash, if_neg hless, if_neg hgreater, if_pos hdigit]

/-- Behind a mark, spaces and tabs are passed over. -/
theorem markedNumber_numeral {b : UInt8} (h : c.rest = b :: (n.spacing ++ (n.digits ++ after))) :
    c.markedNumber n.radix = (c.skip (1 + n.spacing.length)).number n.radix := by
  obtain ⟨first, rest, hdigits⟩ := List.exists_cons_of_ne_nil n.nonempty
  have hfigure : Byte.folded first ∈ n.radix.figures :=
    n.figures first (by rw [hdigits]; exact List.mem_cons_self)
  have hspacing : ∀ b ∈ n.spacing, Byte.isSpacing b = true := by
    intro b hb
    rcases n.spaced b hb with rfl | rfl <;> rfl
  have hstop : ∀ b ∈ (n.digits ++ after).head?, Byte.isSpacing b = false := by
    rw [hdigits]
    rintro _ ⟨⟩
    have hword := Numeral.isWord_of_figure hfigure
    refine Bool.eq_false_iff.mpr fun hspace => ?_
    rcases (by simpa [Byte.isSpacing] using hspace : first = 0x20 ∨ first = 0x09) with rfl | rfl
    · exact absurd hword (by decide)
    · exact absurd hword (by decide)
  have hrest : (c.skip 1).rest = n.spacing ++ (n.digits ++ after) := by
    rw [skip, h]
    rfl
  have hsees : ((c.skip (1 + n.spacing.length)).sees fun b =>
      n.radix.isDigit (Byte.folded b)) = true := by
    rw [sees, ← skip_skip, skip, hrest, List.drop_left, hdigits]
    exact (Radix.isDigit_folded_iff _).mpr hfigure
  unfold markedNumber
  rw [skipWhile_run hrest hspacing hstop, skip_skip]
  exact if_pos hsees

/-- A numeral is scanned as its number, or not at all; the cursor is behind it either way. -/
theorem scan_numeral (h : c.rest = n.bytes ++ (extra ++ after)) (hbehind : n.Behind extra after) :
    c.scan = (n.lexeme extra, c.skip (n.bytes ++ extra).length) := by
  have hmarked : ∀ b : UInt8, n.radix.mark = [b] → c.scan = c.markedNumber n.radix →
      c.scan = (n.lexeme extra, c.skip (n.bytes ++ extra).length) := by
    intro b hmark hscan
    have hrest : c.rest = b :: (n.spacing ++ (n.digits ++ (extra ++ after))) := by
      simp [h, Numeral.bytes, hmark]
    have hdigits : (c.skip (1 + n.spacing.length)).rest = n.digits ++ (extra ++ after) := by
      rw [← skip_skip, skip, skip, hrest, List.drop_succ_cons, List.drop_zero, List.drop_left]
    rw [hscan, markedNumber_numeral hrest, number_numeral hdigits hbehind, skip_skip]
    simp [Numeral.bytes, hmark, Nat.add_assoc, Nat.add_comm 1]
  cases hradix : n.radix with
  | hexadecimal =>
    refine hmarked 0x24 (by rw [hradix]; rfl) ?_
    unfold scan
    rw [h, hradix, Numeral.bytes, hradix]
    rfl
  | binary =>
    refine hmarked 0x25 (by rw [hradix]; rfl) ?_
    unfold scan
    rw [h, hradix, Numeral.bytes, hradix]
    rfl
  | decimal =>
    have hbytes : n.bytes = n.digits := by simp [Numeral.bytes, hradix, Radix.mark, n.alone hradix]
    obtain ⟨first, rest, hdigits⟩ := List.exists_cons_of_ne_nil n.nonempty
    have hfigure : Byte.folded first ∈ Radix.decimal.figures := by
      rw [← hradix]
      exact n.figures first (by rw [hdigits]; exact List.mem_cons_self)
    have hrest : c.rest = first :: (rest ++ (extra ++ after)) := by simp [h, hbytes, hdigits]
    rw [scan_eq_number hrest hfigure, ← hradix, number_numeral (hbytes ▸ h) hbehind, hbytes,
      List.length_append]

/-- A numeral is the next token where it stands. -/
theorem next_numeral (h : c.toToken.rest = n.bytes ++ (extra ++ after))
    (hbehind : n.Behind extra after) :
    c.next = (located c.toToken.position (n.lexeme extra),
      c.toToken.begin.skip (n.bytes ++ extra).length) := by
  obtain ⟨b, rest, hbytes, hsolid⟩ := n.exists_bytes_eq
  have hsees : c.toToken.sees Byte.isLineEnd = false := by
    simp only [Byte.isSolid, Bool.and_eq_true, Bool.not_eq_true'] at hsolid
    rw [sees, h, hbytes]
    exact hsolid.1.2
  have hscan : c.toToken.begin.scan = _ := scan_numeral (c := c.toToken.begin) h hbehind
  rw [next_eq_scan hsees, hscan]

theorem toToken_numeral {behind : List UInt8} (h : c.rest = n.bytes ++ behind) : c.toToken = c := by
  obtain ⟨b, rest, hbytes, hsolid⟩ := n.exists_bytes_eq
  exact toToken_solid (by rw [h, hbytes, List.cons_append]) hsolid

end Cursor

/-! ### Numbers that are printed -/

namespace Hexadecimal

theorem folded_digits (length value : Nat) :
    (Byte.ofChars (digits length value)).map Byte.folded = digits length value := by
  have hfolded := forall_mem_digits (p := fun c => Byte.folded c.toUInt8 == c) (by decide) length
    value
  exact Point.map_folded fun c hc => beq_iff_eq.mp (hfolded c hc)

/-- The digits of a number in either case, behind their mark, are a numeral for it. -/
theorem exists_numeral {chars : List Char} {length value : Nat}
    (h : (Byte.ofChars chars).map Byte.folded = digits length value) :
    ∃ n : Numeral, n.bytes = Byte.ofChars ('$' :: chars) ∧ n.value = value := by
  have hdigits : ∀ c ∈ digits length value, c ∈ Radix.hexadecimal.figures :=
    fun c hc => List.contains_iff_mem.mp (forall_mem_digits (by decide) length value c hc)
  have hfigures : ∀ b ∈ Byte.ofChars chars, Byte.folded b ∈ Radix.hexadecimal.figures :=
    fun b hb => hdigits _ (h ▸ List.mem_map_of_mem hb)
  have hne : Byte.ofChars chars ≠ [] := by
    intro hnil
    rw [hnil] at h
    exact digits_ne_nil length value h.symm
  have hvalue : Radix.hexadecimal.positional (digits length value) = value :=
    Option.some.inj ((Radix.natural?_of_figures hdigits).symm.trans
      (Radix.natural?_digits length value))
  refine ⟨⟨.hexadecimal, [], Byte.ofChars chars, by simp, fun _ => rfl, hne, hfigures⟩, rfl, ?_⟩
  rw [Numeral.value, h, hvalue]

end Hexadecimal

namespace Point

variable {fresh : Bool} {chars behind : List Char} {length value : Nat}

/-- The digits of a number in either case, behind their mark, are read as the number. -/
theorem leads_hexadecimal (h : (Byte.ofChars chars).map Byte.folded = Hexadecimal.digits length value)
    (hfits : value < 0x80000000) (hends : Ends behind) :
    Leads ⟨fresh, '$' :: chars ++ behind⟩ (.constant (Int32.ofNat value)) ⟨false, behind⟩ := by
  refine leads_of_scan (by decide) fun c hc => ?_
  obtain ⟨n, hbytes, hvalue⟩ := Hexadecimal.exists_numeral h
  have hrest : c.rest = n.bytes ++ ([] ++ Byte.ofChars behind) := by
    rw [hc, hbytes]
    simp [Byte.ofChars]
  have hbehind : n.Behind [] (Byte.ofChars behind) := ⟨by simp, by simp, hends.bytes⟩
  refine ⟨c.skip (n.bytes ++ []).length, ?_, rfl, ?_⟩
  · rw [Cursor.scan_numeral hrest hbehind, Numeral.lexeme, hvalue, if_pos ⟨rfl, hfits⟩]
  · rw [Cursor.skip, hrest, List.append_nil, List.nil_append, List.drop_left]

end Point

/-! ### Reading -/

/-- The reading behind the bytes of a token. -/
def Reading.past (r : Reading) (bytes : List UInt8) : Reading :=
  { r with cursor := r.cursor.toToken.begin.skip bytes.length }

namespace Parser

variable {r : Reading} {n : Numeral} {extra after : List UInt8}

/-- A numeral that fits is read as a constant. -/
theorem next_of_fits (h : r.cursor.toToken.rest = n.bytes ++ after) (hbehind : n.Behind [] after)
    (hfits : n.value < 0x80000000) :
    ∃ v : Int32, v.toInt = n.value ∧
      next r = .ok ⟨.constant v, r.cursor.toToken.position⟩ (r.past n.bytes) := by
  refine ⟨Int32.ofNat n.value, Int32.toInt_ofNat_of_lt hfits, ?_⟩
  rw [next, Cursor.next_numeral h hbehind, Numeral.lexeme, if_pos ⟨rfl, hfits⟩, List.append_nil]
  rfl

/-- A numeral that does not fit, or that goes on like a word, is an error. -/
theorem next_of_malformed (h : r.cursor.toToken.rest = n.bytes ++ (extra ++ after))
    (hbehind : n.Behind extra after) (hbad : extra = [] → 0x80000000 ≤ n.value) :
    next r = .error ⟨.scan (.malformedNumber (Byte.foldedText (n.digits ++ extra))),
        r.source.location r.cursor.toToken.position⟩ (r.past (n.bytes ++ extra)) := by
  have hnot : ¬ (extra = [] ∧ n.value < 0x80000000) :=
    fun ⟨hnil, hfits⟩ => Nat.not_lt_of_le (hbad hnil) hfits
  rw [next, Cursor.next_numeral h hbehind, Numeral.lexeme, if_neg hnot]
  rfl

/-- Let a numeral stand at the cursor.  If no letter, digit or underscore follows its digits, it is
read as its positional value, provided that this is less than `0x80000000`, and otherwise it is a
malformed number, which is reported by its digits in lower case.  If one follows, the digits with
all that goes on behind them are a malformed number.  In any case the cursor is directly behind what
was read, nothing else has changed, and the radix is not in force any more: a numeral that follows
is read in its own radix, decimal digits as such. -/
theorem numeral_exact (r : Reading) (n : Numeral) (extra after : List UInt8)
    (hrest : r.cursor.rest = n.bytes ++ (extra ++ after)) (hbehind : n.Behind extra after) :
    (extra = [] → n.value < 0x80000000 → ∃ v : Int32, v.toInt = n.value ∧
      next r = .ok ⟨.constant v, r.cursor.position⟩ (r.past (n.bytes ++ extra))) ∧
    (extra = [] → 0x80000000 ≤ n.value →
      next r = .error ⟨.scan (.malformedNumber (Byte.foldedText n.digits)),
        r.source.location r.cursor.position⟩ (r.past (n.bytes ++ extra))) ∧
    (extra ≠ [] →
      next r = .error ⟨.scan (.malformedNumber (Byte.foldedText (n.digits ++ extra))),
        r.source.location r.cursor.position⟩ (r.past (n.bytes ++ extra))) ∧
    (r.past (n.bytes ++ extra)).cursor.rest = after ∧
    ∀ (m : Numeral) (behind : List UInt8),
      (r.past (n.bytes ++ extra)).cursor.toToken.rest = m.bytes ++ behind → m.Behind [] behind →
      m.value < 0x80000000 → ∃ (v : Int32) (p : Position) (r' : Reading), v.toInt = m.value ∧
        next (r.past (n.bytes ++ extra)) = .ok ⟨.constant v, p⟩ r' := by
  have htoken : r.cursor.toToken = r.cursor := Cursor.toToken_numeral hrest
  have hrest' : r.cursor.toToken.rest = n.bytes ++ (extra ++ after) := by rw [htoken, hrest]
  refine ⟨?_, ?_, ?_, ?_, ?_⟩
  · rintro rfl hfits
    obtain ⟨v, hv, hnext⟩ := next_of_fits hrest' hbehind hfits
    rw [htoken] at hnext
    rw [List.append_nil]
    exact ⟨v, hv, hnext⟩
  · rintro rfl hlarge
    have hnext := next_of_malformed hrest' hbehind fun _ => hlarge
    rw [htoken] at hnext
    rw [← List.append_nil n.digits]
    exact hnext
  · intro hextra
    have hnext := next_of_malformed hrest' hbehind fun hnil => absurd hnil hextra
    rw [htoken] at hnext
    exact hnext
  · show r.cursor.toToken.rest.drop (n.bytes ++ extra).length = after
    rw [hrest', ← List.append_assoc, List.drop_left]
  · -- a reading keeps no radix, so what was read before makes no difference
    intro m behind hm hends hfits
    obtain ⟨v, hv, hnext⟩ := next_of_fits hm hends hfits
    exact ⟨v, _, _, hv, hnext⟩

/-- The largest number, with zeros in front and digits in either case, and decimal digits behind
it. -/
theorem numeral_exact_largest :
    ∃ r r' r'' : Reading, ∃ v w : Int32, ∃ p : Position,
      r.cursor.rest = Byte.ofChars "$ \t007FfFFfff 10".toList ∧
      next r = .ok ⟨.constant v, r.cursor.position⟩ r' ∧ v.toInt = 0x7fffffff ∧
      next r' = .ok ⟨.constant w, p⟩ r'' ∧ w.toInt = 10 := by
  obtain ⟨n, hbytes, hvalue⟩ : ∃ n : Numeral,
      n.bytes = Byte.ofChars "$ \t007FfFFfff".toList ∧ n.value = 0x7fffffff :=
    ⟨⟨.hexadecimal, [0x20, 0x09], Byte.ofChars "007FfFFfff".toList, by simp, by simp,
      by decide +kernel, Radix.figures_of_all (by decide +kernel)⟩, by decide +kernel,
      by decide +kernel⟩
  obtain ⟨m, hbytes', hvalue'⟩ : ∃ m : Numeral,
      m.bytes = Byte.ofChars ['1', '0'] ∧ m.value = 10 :=
    ⟨⟨.decimal, [], Byte.ofChars ['1', '0'], by simp, by simp, by decide +kernel,
      Radix.figures_of_all (by decide +kernel)⟩, rfl, by decide +kernel⟩
  have hbehind : n.Behind [] [0x20, 0x31, 0x30] :=
    ⟨by simp, by simp, fun b hb => by cases hb; decide⟩
  obtain ⟨hfits, -, -, hafter, hfollowing⟩ := numeral_exact
    (.start ⟨"main", none, Byte.ofChars "$ \t007FfFFfff 10".toList⟩ .empty) n [] _
    (by rw [hbytes]; decide +kernel) hbehind
  obtain ⟨v, hv, hnext⟩ := hfits rfl (by rw [hvalue]; decide)
  have hten : (Reading.past (.start ⟨"main", none, Byte.ofChars "$ \t007FfFFfff 10".toList⟩ .empty)
      (n.bytes ++ [])).cursor.toToken.rest = m.bytes ++ [] := by
    rw [hbytes, hbytes']
    decide +kernel
  obtain ⟨w, p, r'', hw, hnext'⟩ := hfollowing m [] hten ⟨by simp, by simp, by simp⟩
    (by rw [hvalue']; decide)
  exact ⟨_, _, r'', v, w, p, rfl, hnext, by rw [hv, hvalue]; rfl, hnext', by rw [hw, hvalue']; rfl⟩

end Parser

end Assembler6502
