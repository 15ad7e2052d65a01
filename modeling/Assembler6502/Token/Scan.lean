/-
From bytes to lexemes.

`Cursor.scan` reads the lexeme at the cursor and `Cursor.next` the next token
after blanks.  Neither looks at the scopes.  An error leaves the cursor after
the bytes that it is about, so reading can go on behind it.

* **`Scans`** — how a lexeme is scanned, by its first byte;
* **`next_suffix`** — the cursor only moves forward;
* **`next_length_lt`** — it moves unless the token is the end of the input.
-/
import Assembler6502.Token

namespace Assembler6502

/-- A lexeme or an error, and the cursor behind it. -/
abbrev Scanned := Except ScanError (Lexeme Spelling) × Cursor

namespace Cursor

/-- Text in quotes on one line; the bytes are kept as they are. -/
def quoted (c : Cursor) : Scanned :=
  let opened := c.skip 1
  let bytes := opened.rest.takeWhile Byte.isQuotable
  let closed := opened.skipWhile Byte.isQuotable
  if closed.sees fun b => Byte.char b == '"' then
    (if bytes.isEmpty then .error .emptyQuote else .ok (.quoted bytes), closed.skip 1)
  else (.error .unterminatedQuote, closed)

/-- Digits of a radix.  Letters, digits or underscores that follow directly make the whole of it
malformed. -/
def number (radix : Radix) (c : Cursor) : Scanned :=
  let isDigit := fun b => radix.isDigit (Byte.folded b)
  let digits := c.rest.takeWhile isDigit
  let read := c.skipWhile isDigit
  let extra := read.rest.takeWhile Byte.isWord
  if extra.isEmpty then
    match radix.integer? (digits.map Byte.folded) with
    | some value => (.ok (.constant value), read)
    | none => (.error (.malformedNumber (Byte.foldedText digits)), read)
  else (.error (.malformedNumber (Byte.foldedText (digits ++ extra))), read.skipWhile Byte.isWord)

/-- Digits behind the mark of their radix; spaces and tabs may stand between. -/
def markedNumber (radix : Radix) (c : Cursor) : Scanned :=
  let digits := (c.skip 1).skipWhile Byte.isSpacing
  if digits.sees fun b => radix.isDigit (Byte.folded b) then digits.number radix
  else (.error (.missingDigits radix), digits)

/-- An anonymous label or a reference to one. -/
def anonymous (c : Cursor) : Scanned :=
  let marked := c.skip 1
  match marked.rest.head?.map Byte.folded with
  | some 'f' | some '+' => (.ok .forward, marked.skip 1)
  | some 'b' | some '-' => (.ok .backward, marked.skip 1)
  | some ':' => (.ok .anonymous, marked.skip 1)
  | _ => (.ok .anonymous, marked)

/-- The word `#include`, or the sign of an immediate operand. -/
def hash (c : Cursor) : Scanned :=
  let word := "#include"
  let behind := c.skip word.length
  if Byte.foldedText (c.rest.take word.length) = word && !behind.sees Byte.isWord then
    (.ok (.directive .includeFile), behind)
  else (.ok (.operator .hash), c.skip 1)

/-- A sign of an order, which is a shift when it is doubled. -/
def angle (sign : Char) (single double : Operator) (c : Cursor) : Scanned :=
  let read := c.skip 1
  if read.sees fun b => Byte.char b == sign then (.ok (.operator double), read.skip 1)
  else (.ok (.operator single), read)

/-- A reserved word or a name. -/
def word (c : Cursor) : Scanned :=
  let text := Byte.foldedText (c.rest.take 1 ++ (c.rest.drop 1).takeWhile Byte.isWord)
  let read := (c.skip 1).skipWhile Byte.isWord
  match Lexeme.keyword? text with
  | some lexeme => (.ok lexeme, read)
  | none =>
    if c.sees fun b => Byte.char b == '.' then (.error (.illegalStart '.'), read)
    else if read.sees fun b => Byte.char b == ':' then (.ok (.name ⟨text, true⟩), read.skip 1)
    else (.ok (.name ⟨text, false⟩), read)

/-- The lexeme at the cursor. -/
def scan (c : Cursor) : Scanned :=
  match c.rest with
  | [] => (.ok .endOfInput, c)
  | b :: _ =>
    let first := Byte.folded b
    match Lexeme.sign? first, Radix.ofMark? first with
    | some lexeme, _ => (.ok lexeme, c.skip 1)
    | none, some radix => c.markedNumber radix
    | none, none =>
      if first = '"' then c.quoted
      else if first = '@' then c.anonymous
      else if first = '#' then c.hash
      else if first = '<' then c.angle '<' .less .shiftLeft
      else if first = '>' then c.angle '>' .greater .shiftRight
      else if first.isDigit then c.number .decimal
      else if first = '.' || first = '_' || first.isAlpha then c.word
      else (.error (.illegalStart first), c.skip 1)

/-- Moves over blanks to where the next token stands. -/
def toToken (c : Cursor) : Cursor :=
  if c.fresh then c.skipBlankLines else c.skipBlanks

/-- Notes that a token is read here, which begins a statement if the cursor is fresh. -/
def begin (c : Cursor) : Cursor :=
  { c with statement := if c.fresh then c.position else c.statement, fresh := false }

/-- The next token, or an error where the token would stand. -/
def next (c : Cursor) : Except (ScanError × Position) (Token Spelling) × Cursor :=
  let c := c.toToken
  if !c.fresh && c.sees Byte.isLineEnd then
    (.ok ⟨.lineEnd, c.position⟩, { c.newline with fresh := true })
  else
    match c.begin.scan with
    | (.ok lexeme, read) => (.ok ⟨lexeme, c.position⟩, read)
    | (.error error, read) => (.error (error, c.position), read)

/-! ### Kinds of lexemes -/

/-- How a lexeme is scanned, by its first byte. -/
inductive Scans (c : Cursor) : Scanned → Prop where
  | sign {first : Char} {lexeme : Lexeme Spelling} (sign : Lexeme.sign? first = some lexeme) :
      Scans c (.ok lexeme, c.skip 1)
  | marked (radix : Radix) : Scans c (c.markedNumber radix)
  | quoted : Scans c c.quoted
  | anonymous : Scans c c.anonymous
  | hash : Scans c c.hash
  | less : Scans c (c.angle '<' .less .shiftLeft)
  | greater : Scans c (c.angle '>' .greater .shiftRight)
  | decimal (digit : c.sees (fun b => Radix.decimal.isDigit (Byte.folded b)) = true) :
      Scans c (c.number .decimal)
  | word : Scans c c.word
  | illegal (first : Char) : Scans c (.error (.illegalStart first), c.skip 1)

theorem scans_scan {c : Cursor} (h : c.rest ≠ []) : c.Scans c.scan := by
  unfold scan
  split
  · contradiction
  · next b rest hr =>
    dsimp only
    split
    · next hsign => exact .sign hsign
    · exact .marked _
    · split
      · exact .quoted
      · split
        · exact .anonymous
        · split
          · exact .hash
          · split
            · exact .less
            · split
              · exact .greater
              · split
                · next hdigit => exact .decimal (by simp [sees, hr, Radix.isDigit_decimal hdigit])
                · split
                  · exact .word
                  · exact .illegal _

theorem scan_of_nil {c : Cursor} (h : c.rest = []) : c.scan = (.ok .endOfInput, c) := by
  rw [scan, h]

/-! ### Progress -/

theorem length_skip_one_lt {c : Cursor} (h : c.rest ≠ []) :
    (c.skip 1).rest.length < c.rest.length := by
  cases hr : c.rest with
  | nil => exact absurd hr h
  | cons b rest => simp [skip, hr]

theorem length_skipWhile_lt {c : Cursor} {p : UInt8 → Bool} (h : c.sees p = true) :
    (c.skipWhile p).rest.length < c.rest.length := by
  cases hr : c.rest with
  | nil => simp [sees, hr] at h
  | cons b rest =>
    have hb : p b = true := by simpa [sees, hr] using h
    have hle := (List.dropWhile_suffix (l := rest) p).length_le
    simp only [skipWhile, hr, List.dropWhile_cons, hb, if_true, List.length_cons]
    omega

theorem quoted_suffix (c : Cursor) : c.quoted.2.rest <:+ (c.skip 1).rest := by
  unfold quoted
  dsimp only
  split
  · exact (skip_suffix _ _).trans (skipWhile_suffix _ _)
  · exact skipWhile_suffix _ _

theorem number_suffix (radix : Radix) (c : Cursor) :
    (c.number radix).2.rest <:+ (c.skipWhile fun b => radix.isDigit (Byte.folded b)).rest := by
  unfold number
  dsimp only
  split
  · split <;> exact List.suffix_refl _
  · exact skipWhile_suffix _ _

theorem markedNumber_suffix (radix : Radix) (c : Cursor) :
    (c.markedNumber radix).2.rest <:+ (c.skip 1).rest := by
  unfold markedNumber
  dsimp only
  split
  · exact ((number_suffix _ _).trans (skipWhile_suffix _ _)).trans (skipWhile_suffix _ _)
  · exact skipWhile_suffix _ _

theorem anonymous_suffix (c : Cursor) : c.anonymous.2.rest <:+ (c.skip 1).rest := by
  unfold anonymous
  dsimp only
  split <;> first | exact skip_suffix _ _ | exact List.suffix_refl _

theorem hash_suffix (c : Cursor) : c.hash.2.rest <:+ (c.skip 1).rest := by
  unfold hash
  dsimp only
  split
  · exact List.drop_suffix_drop_left c.rest (by decide)
  · exact List.suffix_refl _

theorem angle_suffix (sign : Char) (single double : Operator) (c : Cursor) :
    (c.angle sign single double).2.rest <:+ (c.skip 1).rest := by
  unfold angle
  dsimp only
  split
  · exact skip_suffix _ _
  · exact List.suffix_refl _

theorem word_suffix (c : Cursor) : c.word.2.rest <:+ (c.skip 1).rest := by
  unfold word
  dsimp only
  split
  · exact skipWhile_suffix _ _
  · split
    · exact skipWhile_suffix _ _
    · split
      · exact (skip_suffix _ _).trans (skipWhile_suffix _ _)
      · exact skipWhile_suffix _ _

theorem Scans.suffix {c : Cursor} {x : Scanned} (h : c.Scans x) :
    x.2.rest <:+ (c.skip 1).rest ∨
      c.sees (fun b => Radix.decimal.isDigit (Byte.folded b)) = true ∧
        x.2.rest <:+ (c.skipWhile fun b => Radix.decimal.isDigit (Byte.folded b)).rest := by
  cases h with
  | sign => exact .inl (List.suffix_refl _)
  | marked radix => exact .inl (markedNumber_suffix radix c)
  | quoted => exact .inl (quoted_suffix c)
  | anonymous => exact .inl (anonymous_suffix c)
  | hash => exact .inl (hash_suffix c)
  | less => exact .inl (angle_suffix ..)
  | greater => exact .inl (angle_suffix ..)
  | decimal digit => exact .inr ⟨digit, number_suffix .decimal c⟩
  | word => exact .inl (word_suffix c)
  | illegal => exact .inl (List.suffix_refl _)

theorem length_scan_lt {c : Cursor} (h : c.rest ≠ []) :
    c.scan.2.rest.length < c.rest.length := by
  rcases (scans_scan h).suffix with hone | ⟨hdigit, hdigits⟩
  · exact Nat.lt_of_le_of_lt hone.length_le (length_skip_one_lt h)
  · exact Nat.lt_of_le_of_lt hdigits.length_le (length_skipWhile_lt hdigit)

theorem scan_suffix (c : Cursor) : c.scan.2.rest <:+ c.rest := by
  by_cases h : c.rest = []
  · simp [scan_of_nil h]
  · rcases (scans_scan h).suffix with hone | ⟨-, hdigits⟩
    · exact hone.trans (skip_suffix c 1)
    · exact hdigits.trans (skipWhile_suffix c _)

theorem toToken_suffix (c : Cursor) : c.toToken.rest <:+ c.rest := by
  unfold toToken
  split
  · exact skipBlankLines_suffix c
  · exact skipBlanks_suffix c

theorem length_newline_lt {c : Cursor} (h : c.sees Byte.isLineEnd = true) :
    c.newline.rest.length < c.rest.length := by
  cases hr : c.rest with
  | nil => simp [sees, hr] at h
  | cons b rest =>
    have hb : Byte.isLineEnd b = true := by simpa [sees, hr] using h
    simp only [newline, hr]
    unfold Byte.dropLineEnd
    split
    · next heq =>
      cases heq
      simp only [List.length_cons]
      omega
    · next heq =>
      cases heq
      simp [hb]
    · contradiction

theorem next_suffix (c : Cursor) : c.next.2.rest <:+ c.rest := by
  unfold next
  dsimp only
  split
  · exact (newline_suffix _).trans (toToken_suffix c)
  · have hs := (scan_suffix c.toToken.begin).trans (toToken_suffix c)
    split
    all_goals
      next hscan =>
      rw [hscan] at hs
      exact hs

/-- The cursor moves unless the input has ended. -/
theorem next_ended_or_length_lt (c : Cursor) :
    (c.next = (.ok ⟨.endOfInput, c.toToken.position⟩, c.toToken.begin) ∧ c.toToken.rest = []) ∨
      c.next.2.rest.length < c.rest.length := by
  have htoken := (toToken_suffix c).length_le
  unfold next
  dsimp only
  split
  · next h =>
    rw [Bool.and_eq_true] at h
    exact .inr (Nat.lt_of_lt_of_le (length_newline_lt h.2) htoken)
  · by_cases hr : c.toToken.rest = []
    · have hscan : c.toToken.begin.scan = (.ok .endOfInput, c.toToken.begin) := scan_of_nil hr
      rw [hscan]
      exact .inl ⟨rfl, hr⟩
    · have hs : c.toToken.begin.scan.2.rest.length < c.toToken.rest.length := length_scan_lt hr
      refine .inr (Nat.lt_of_lt_of_le ?_ htoken)
      split
      all_goals
        next hscan =>
        rw [hscan] at hs
        exact hs

/-- The cursor moves unless it reads the end of the input. -/
theorem next_length_lt (c : Cursor) :
    (∃ p, c.next.1 = .ok ⟨.endOfInput, p⟩) ∨ c.next.2.rest.length < c.rest.length := by
  rcases c.next_ended_or_length_lt with ⟨hnext, -⟩ | hlt
  · exact .inl ⟨_, congrArg Prod.fst hnext⟩
  · exact .inr hlt

end Cursor

end Assembler6502
